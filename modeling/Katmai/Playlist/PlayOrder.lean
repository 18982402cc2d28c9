import Katmai.Playlist.Playlist

/-!
# What is played

Every call of a play list is answered as a shelf answers it (`exists_call_of_stands`), which is
proved for each function of the object on the relation `Stands`.
-/

set_option autoImplicit false
set_option relaxedAutoImplicit false

namespace Katmai.Playlist

open Foundation

variable {pl : PlaylistT} {shelf : Shelf} {mktime : Tm → ℤ} {nodes : List (ℕ × Strlist)}

/-- The list in memory goes through `nodes`, which hold the names of the shelf, and the pointer is
at the node of its position. -/
structure Holds (pl : PlaylistT) (shelf : Shelf) (nodes : List (ℕ × Strlist)) : Prop where
  path : LinkPath Strlist.next pl.cells pl.list nodes none
  names_eq : nodes.map (fun item ↦ item.2.str) = shelf.names
  pointer_eq : pl.pointer = shelf.position.bind fun i ↦ (nodes.map Prod.fst)[i]?
  position_lt : ∀ i ∈ shelf.position, i < shelf.names.length
  loopMode_eq : pl.loopMode = if shelf.looping then 1 else 0
  start_eq : pl.start = shelf.start
  stop_eq : pl.stop = shelf.stop

/-- The object stands for the shelf. -/
def Stands (pl : PlaylistT) (shelf : Shelf) : Prop :=
  ∃ nodes, Holds pl shelf nodes

theorem stands_newPlaylist (start stop : ℤ) :
    Stands (newPlaylist start stop) (Shelf.empty start stop) :=
  ⟨[], rfl, rfl, rfl, by simp [Shelf.empty], rfl, rfl, rfl⟩

theorem Holds.length_eq (h : Holds pl shelf nodes) : nodes.length = shelf.names.length := by
  rw [← h.names_eq, List.length_map]

/-- The node of a position. -/
theorem Holds.exists_node (h : Holds pl shelf nodes) {i : ℕ} (hi : i < shelf.names.length) :
    ∃ a node, nodes[i]? = some (a, node) ∧ (nodes.map Prod.fst)[i]? = some a ∧
      pl.cells.load (some a) = some node ∧ shelf.names[i]? = some node.str := by
  have hlt : i < nodes.length := h.length_eq ▸ hi
  have hitem : nodes[i]? = some nodes[i] := List.getElem?_eq_getElem hlt
  refine ⟨nodes[i].1, nodes[i].2, hitem, ?_, h.path.load_of_mem (List.getElem_mem hlt), ?_⟩
  · rw [List.getElem?_map, hitem, Option.map_some]
  · rw [← h.names_eq, List.getElem?_map, hitem, Option.map_some]

/-! ### Adding -/

/-- The loop of `pl_add` comes to the link of the last node and counts the nodes. -/
theorem lastLink_eq {fuel : ℕ} {p pptr : Option ℕ} (rc : ℤ) (hlink : pl.link pptr = some p)
    (hpath : LinkPath Strlist.next pl.cells p nodes none) (hfuel : nodes.length < fuel) :
    lastLink pl fuel pptr rc =
      some ((nodes.map Prod.fst).getLast?.or pptr, rc + nodes.length) := by
  induction nodes generalizing fuel p pptr rc with
  | nil =>
    obtain rfl : p = none := hpath
    obtain ⟨fuel, rfl⟩ := Nat.exists_eq_add_one_of_ne_zero (Nat.ne_zero_of_lt hfuel)
    rw [lastLink, hlink]
    simp
  | cons item nodes ih =>
    obtain ⟨a, node⟩ := item
    obtain ⟨rfl, hload, hrest⟩ := hpath
    obtain ⟨fuel, rfl⟩ := Nat.exists_eq_add_one_of_ne_zero (Nat.ne_zero_of_lt hfuel)
    have hnext : pl.link (some a) = some node.next := by rw [PlaylistT.link, hload]; rfl
    rw [lastLink, hlink, Option.bind_some]
    simp only
    rw [ih (rc + 1) hnext hrest (Nat.lt_of_succ_lt_succ hfuel)]
    simp only [Option.some.injEq, Prod.mk.injEq, List.map_cons, List.length_cons, Nat.cast_add,
      Nat.cast_one]
    refine ⟨?_, by ring⟩
    cases nodes with
    | nil => rfl
    | cons item nodes => rw [List.map_cons, List.getLast?_cons_cons, List.getLast?_cons]; rfl

/-- A new node is linked behind the last one. -/
theorem exists_setLink (hpath : LinkPath Strlist.next pl.cells pl.list nodes none) (fname : Str) :
    ∃ cells list nodes',
      PlaylistT.setLink { pl with cells := pl.cells.alloc ⟨fname, none⟩ }
          (nodes.map Prod.fst).getLast? pl.cells.length =
        some { pl with cells := cells, list := list } ∧
      LinkPath Strlist.next cells list nodes' none ∧
      nodes'.map Prod.fst = nodes.map Prod.fst ++ [pl.cells.length] ∧
      (nodes'.map fun item ↦ item.2.str) = (nodes.map fun item ↦ item.2.str) ++ [fname] := by
  rcases List.eq_nil_or_concat nodes with rfl | ⟨first, ⟨t, last⟩, rfl⟩
  · exact ⟨_, _, [(pl.cells.length, ⟨fname, none⟩)], rfl,
      ⟨rfl, Cells.load_alloc_self _ _, rfl⟩, rfl, rfl⟩
  · rw [List.concat_eq_append] at hpath ⊢
    obtain ⟨cells, hupdate, hlinked⟩ :=
      hpath.allocLinked (f := fun node ↦ { node with next := some pl.cells.length })
        ⟨fname, none⟩ rfl rfl
    refine ⟨cells, pl.list, _, ?_, hlinked, by simp, by simp⟩
    rw [List.map_append, List.map_singleton, List.getLast?_concat, PlaylistT.setLink, hupdate]
    rfl

/-- `pl_add` puts the name behind the others and answers their number. -/
theorem plAdd_of_stands (hstands : Stands pl shelf) (fname : Str) :
    ∃ pl', plAdd pl fname = some ((shelf.names.length : ℤ) + 1, pl') ∧
      Stands pl' { shelf with names := shelf.names ++ [fname] } := by
  obtain ⟨nodes, h⟩ := hstands
  have hkept : LinkPath Strlist.next (pl.cells.alloc ⟨fname, none⟩) pl.list nodes none :=
    h.path.frame fun item hitem ↦ by
      have hload := h.path.load_of_mem hitem
      rw [hload, Cells.load_alloc_of_load hload]
  have hloop : lastLink { pl with cells := pl.cells.alloc ⟨fname, none⟩ } _ none 1 = _ :=
    lastLink_eq 1 rfl hkept (Nat.lt_succ_of_le hkept.length_le)
  obtain ⟨cells, list, nodes', hset, hpath, haddr, hnames⟩ := exists_setLink h.path fname
  refine ⟨{ pl with cells := cells, list := list }, ?_, nodes', hpath, ?_, ?_, ?_, h.loopMode_eq,
    h.start_eq, h.stop_eq⟩
  · rw [plAdd]
    simp only
    rw [hloop, Option.bind_some]
    simp only
    rw [Option.or_none, hset, Option.map_some, h.length_eq, Int.add_comm]
  · rw [hnames, h.names_eq]
  · -- the addresses of the others are the same
    show pl.pointer = _
    rw [h.pointer_eq, haddr]
    cases hposition : shelf.position with
    | none => rfl
    | some i =>
      have hlt : i < (nodes.map Prod.fst).length := by
        rw [List.length_map, h.length_eq]
        exact h.position_lt i hposition
      exact (List.getElem?_append_left hlt).symm
  · intro i hi
    rw [List.length_append]
    exact Nat.lt_add_right _ (h.position_lt i hi)

/-! ### Cleaning -/

theorem plClean_of_stands (hstands : Stands pl shelf) :
    ∃ pl', plClean pl = some pl' ∧ Stands pl' { shelf with names := [], position := none } := by
  obtain ⟨nodes, h⟩ := hstands
  obtain ⟨cells, hrelease, -, -⟩ := h.path.releaseAll (Nat.lt_succ_of_le h.path.length_le)
  refine ⟨{ pl with cells := cells, list := none, pointer := none }, ?_, [], rfl, rfl, rfl,
    by simp, h.loopMode_eq, h.start_eq, h.stop_eq⟩
  rw [plClean, hrelease, Option.map_some]

/-! ### Playing -/

theorem plCurrent_of_stands (hstands : Stands pl shelf) : plCurrent pl = some shelf.current := by
  obtain ⟨nodes, h⟩ := hstands
  have hpointer := h.pointer_eq
  rw [plCurrent, Shelf.current]
  cases hposition : shelf.position with
  | none =>
    rw [hposition] at hpointer
    rw [hpointer]
    rfl
  | some i =>
    obtain ⟨a, node, -, haddr, hload, hname⟩ := h.exists_node (h.position_lt i hposition)
    rw [hposition, Option.bind_some, haddr] at hpointer
    rw [hpointer, Option.bind_some, hname]
    simp only
    rw [hload, Option.map_some]

/-- The pointer is moved to a node. -/
theorem Holds.moveTo (h : Holds pl shelf nodes) {a i : ℕ} (haddr : (nodes.map Prod.fst)[i]? = some a)
    (hi : i < shelf.names.length) :
    Stands { pl with pointer := some a } { shelf with position := some i } :=
  ⟨nodes, h.path, h.names_eq, haddr.symm, by simpa using hi, h.loopMode_eq, h.start_eq, h.stop_eq⟩

/-- The pointer is set to `NULL`. -/
theorem Holds.moveOff (h : Holds pl shelf nodes) :
    Stands { pl with pointer := none } { shelf with position := none } :=
  ⟨nodes, h.path, h.names_eq, rfl, by simp, h.loopMode_eq, h.start_eq, h.stop_eq⟩

/-- `pl_next` goes on to the next name, from the last one to the first one or off the list. -/
theorem plNext_of_stands (hstands : Stands pl shelf) :
    ∃ pl', plNext pl = some (({ shelf with position := shelf.advance } : Shelf).current, pl') ∧
      Stands pl' { shelf with position := shelf.advance } := by
  obtain ⟨nodes, h⟩ := hstands
  have hanswer {pl' : PlaylistT} {position : Option ℕ}
      (hmoved : Stands pl' { shelf with position := position }) :
      (plCurrent pl').map (fun str ↦ (str, pl')) =
        some (({ shelf with position := position } : Shelf).current, pl') := by
    rw [plCurrent_of_stands hmoved, Option.map_some]
  obtain ⟨cells, start, stop, list, loopMode, pointer⟩ := pl
  have hpointer : pointer = _ := h.pointer_eq
  have hlist : list = _ := h.path.start_eq
  by_cases hnames : shelf.names = []
  · -- there is no name
    obtain rfl : nodes = [] := List.eq_nil_of_length_eq_zero (by rw [h.length_eq, hnames]; rfl)
    have hadvance : shelf.advance = none := by simp [Shelf.advance, hnames]
    have hoff : pointer = none := by rw [hpointer]; cases shelf.position <;> rfl
    rw [hadvance]
    subst hlist
    exact ⟨_, rfl, [], h.path, h.names_eq, hoff, by simp, h.loopMode_eq, h.start_eq, h.stop_eq⟩
  have hpos : 0 < shelf.names.length := List.length_pos_of_ne_nil hnames
  obtain ⟨first, -, -, hfirst, -, -⟩ := h.exists_node hpos
  rw [List.head?_eq_getElem?, hfirst] at hlist
  subst hlist
  cases hposition : shelf.position with
  | none =>
    have hadvance : shelf.advance = some 0 := by simp [Shelf.advance, hposition, hpos]
    obtain rfl : pointer = none := by rw [hpointer, hposition]; rfl
    rw [hadvance]
    exact ⟨_, hanswer (h.moveTo hfirst hpos), h.moveTo hfirst hpos⟩
  | some i =>
    obtain ⟨a, node, hitem, haddr, hload, -⟩ := h.exists_node (h.position_lt i hposition)
    have hnext := h.path.next_eq hitem
    obtain rfl : pointer = some a := by rw [hpointer, hposition, Option.bind_some, haddr]
    rw [plNext]
    simp only
    rw [hload, Option.bind_some]
    by_cases hlast : i + 1 < shelf.names.length
    · obtain ⟨b, -, -, hb, -, -⟩ := h.exists_node hlast
      have hadvance : shelf.advance = some (i + 1) := by simp [Shelf.advance, hposition, hlast]
      rw [hnext, hb, hadvance]
      exact ⟨_, hanswer (h.moveTo hb hlast), h.moveTo hb hlast⟩
    · -- the end of the list
      have hend : (nodes.map Prod.fst)[i + 1]? = none := by
        rw [List.getElem?_eq_none_iff, List.length_map, h.length_eq]
        exact not_lt.mp hlast
      rw [hnext, hend]
      simp only
      by_cases hlooping : shelf.looping
      · have hone : loopMode = 1 := h.loopMode_eq.trans (if_pos hlooping)
        have hmode : loopMode ≠ 0 := by
          rw [hone]
          decide
        have hadvance : shelf.advance = some 0 := by
          simp [Shelf.advance, hposition, hlast, hlooping, hnames]
        rw [hadvance, if_pos hmode]
        exact ⟨_, hanswer (h.moveTo hfirst hpos), h.moveTo hfirst hpos⟩
      · have hmode : ¬loopMode ≠ 0 := not_not.mpr (h.loopMode_eq.trans (if_neg hlooping))
        have hadvance : shelf.advance = none := by
          simp [Shelf.advance, hposition, hlast, hlooping]
        rw [hadvance, if_neg hmode]
        exact ⟨_, rfl, h.moveOff⟩

/-! ### Loading -/

/-- The loop of `pl_load_playlist` over lines that are already trimmed and say something. -/
def enter (mktime : Tm → ℤ) : List Str → ℕ → PlaylistT → Option PlaylistT
  | [], _, pl => some pl
  | entry :: rest, line, pl =>
    (takeLine mktime pl (line + 1) entry).bind (enter mktime rest (line + 1))

theorem loadLines_eq (lines : List Str) (line : ℕ) (pl : PlaylistT) :
    loadLines mktime lines line pl =
      enter mktime ((lines.map trimmed).filter fun line ↦ line ≠ [] ∧ line ≠ ['\x1a']) line pl := by
  induction lines generalizing line pl with
  | nil => rfl
  | cons buffer lines ih =>
    have hblank : trimmed buffer = [] ↔ (trimmed buffer).length = 0 := List.length_eq_zero_iff.symm
    have hmark : trimmed buffer = ['\x1a'] ↔
        (trimmed buffer).length = 1 ∧ (trimmed buffer)[0]? = some '\x1a' := by
      constructor
      · intro heq
        rw [heq]
        decide
      · rintro ⟨hone, hfirst⟩
        obtain ⟨c, hc⟩ := List.length_eq_one_iff.mp hone
        rw [hc] at hfirst ⊢
        rw [Option.some.inj hfirst]
    rw [loadLines, List.map_cons]
    change (if (trimmed buffer).length = 0 then loadLines mktime lines line pl
      else if (trimmed buffer).length = 1 ∧ (trimmed buffer)[0]? = some '\x1a' then
        loadLines mktime lines line pl
      else (takeLine mktime pl (line + 1) (trimmed buffer)).bind
        (loadLines mktime lines (line + 1))) = _
    split_ifs with hzero hdos
    · rw [ih, List.filter_cons_of_neg (by simp [hblank.mpr hzero])]
    · rw [ih, List.filter_cons_of_neg (by simp [hmark.mpr hdos])]
    · have hkeep : trimmed buffer ≠ [] ∧ trimmed buffer ≠ ['\x1a'] :=
        ⟨fun heq ↦ hzero (hblank.mp heq), fun heq ↦ hdos (hmark.mp heq)⟩
      rw [List.filter_cons_of_pos (by simpa using hkeep), enter]
      exact Option.bind_congr fun pl' _ ↦ ih _ pl'

/-- From the third entry on they are names. -/
theorem enter_names (rest : List Str) {line : ℕ} (hline : 2 ≤ line) (hstands : Stands pl shelf) :
    ∃ pl', enter mktime rest line pl = some pl' ∧
      Stands pl' { shelf with names := shelf.names ++ rest } := by
  induction rest generalizing pl shelf line with
  | nil => exact ⟨pl, rfl, by simpa using hstands⟩
  | cons entry rest ih =>
    obtain ⟨line, rfl⟩ := Nat.exists_eq_add_of_le' hline
    obtain ⟨pl1, hadd, hstands1⟩ := plAdd_of_stands hstands entry
    have hmore : 2 ≤ line + 3 := Nat.le_add_left 2 (line + 1)
    obtain ⟨pl', henter, hstands'⟩ := ih hmore hstands1
    refine ⟨pl', ?_, by simpa using hstands'⟩
    rw [enter, takeLine, hadd, Option.map_some, Option.bind_some]
    · exact henter
    · omega
    · omega

theorem stands_setStart (hstands : Stands pl shelf) (v : ℤ) :
    Stands { pl with start := v } { shelf with start := v } := by
  obtain ⟨nodes, h⟩ := hstands
  exact ⟨nodes, h.path, h.names_eq, h.pointer_eq, h.position_lt, h.loopMode_eq, rfl, h.stop_eq⟩

theorem stands_setStop (hstands : Stands pl shelf) (v : ℤ) :
    Stands { pl with stop := v } { shelf with stop := v } := by
  obtain ⟨nodes, h⟩ := hstands
  exact ⟨nodes, h.path, h.names_eq, h.pointer_eq, h.position_lt, h.loopMode_eq, h.start_eq, rfl⟩

theorem plLoadPlaylist_of_stands (hstands : Stands pl shelf) (file : Option Str) :
    ∃ pl', plLoadPlaylist mktime pl file = some (0, pl') ∧
      Stands pl' (file.elim shelf (shelf.load mktime)) := by
  cases file with
  | none => exact ⟨pl, rfl, hstands⟩
  | some text =>
    obtain ⟨pl0, hclean, hstands0⟩ := plClean_of_stands hstands
    suffices hload : ∃ pl', enter mktime (entries text) 0 pl0 = some pl' ∧
        Stands pl' (shelf.load mktime text) by
      obtain ⟨pl', henter, hstands'⟩ := hload
      refine ⟨pl', ?_, hstands'⟩
      rw [plLoadPlaylist, hclean, Option.bind_some, loadLines_eq, ← entries, henter, Option.map_some]
    rw [Shelf.load]
    match entries text with
    | [] => exact ⟨pl0, rfl, hstands0⟩
    | [begin] => exact ⟨_, rfl, stands_setStart hstands0 _⟩
    | begin :: stop :: names =>
      have hstart := stands_setStart hstands0 (timeOf mktime begin)
      exact enter_names names le_rfl (stands_setStop hstart (timeOf mktime stop))

/-! ### All calls -/

theorem plLooping_of_stands (hstands : Stands pl shelf) (mode : ℤ) :
    (plLooping pl mode).1 = (if shelf.looping then 1 else 0) ∧
      Stands (plLooping pl mode).2
        (if mode ≥ 0 then { shelf with looping := mode ≠ 0 } else shelf) := by
  obtain ⟨nodes, h⟩ := hstands
  refine ⟨h.loopMode_eq, ?_⟩
  by_cases hmode : mode ≥ 0
  · rw [plLooping, if_pos hmode, if_pos hmode]
    refine ⟨nodes, h.path, h.names_eq, h.pointer_eq, h.position_lt, ?_, h.start_eq, h.stop_eq⟩
    simp only [decide_eq_true_eq]
  · rw [plLooping, if_neg hmode, if_neg hmode]
    exact ⟨nodes, h⟩

/-- A call of a play list is answered as a shelf answers it. -/
theorem exists_call_of_stands (c : Call) (hstands : Stands pl shelf) :
    ∃ pl', call mktime pl c = some ((shelf.call mktime c).1, pl') ∧
      Stands pl' (shelf.call mktime c).2 := by
  have hfields : pl.start = shelf.start ∧ pl.stop = shelf.stop := by
    obtain ⟨nodes, h⟩ := hstands
    exact ⟨h.start_eq, h.stop_eq⟩
  cases c with
  | setStarttime str => exact ⟨_, rfl, stands_setStart hstands _⟩
  | setStoptime str => exact ⟨_, rfl, stands_setStop hstands _⟩
  | startTime => exact ⟨pl, by rw [call, hfields.1]; rfl, hstands⟩
  | stopTime => exact ⟨pl, by rw [call, hfields.2]; rfl, hstands⟩
  | loadPlaylist file =>
    obtain ⟨pl', hload, hstands'⟩ := plLoadPlaylist_of_stands hstands file
    exact ⟨pl', by rw [call, hload]; rfl, hstands'⟩
  | clean =>
    obtain ⟨pl', hclean, hstands'⟩ := plClean_of_stands hstands
    exact ⟨pl', by rw [call, hclean]; rfl, hstands'⟩
  | add fname =>
    obtain ⟨pl', hadd, hstands'⟩ := plAdd_of_stands hstands fname
    exact ⟨pl', by rw [call, hadd]; rfl, hstands'⟩
  | looping mode =>
    obtain ⟨hrc, hstands'⟩ := plLooping_of_stands hstands mode
    exact ⟨_, by rw [call, hrc]; rfl, hstands'⟩
  | first =>
    obtain ⟨nodes, h⟩ := hstands
    exact ⟨_, rfl, h.moveOff⟩
  | next =>
    obtain ⟨pl', hnext, hstands'⟩ := plNext_of_stands hstands
    exact ⟨pl', by rw [call, hnext]; rfl, hstands'⟩
  | current => exact ⟨pl, by rw [call, plCurrent_of_stands hstands]; rfl, hstands⟩

/-- A new play list goes on standing for the shelf that is given the same calls. -/
theorem exists_serve (mktime : Tm → ℤ) (start stop : ℤ) (calls : List Call) :
    ∃ pl, serve (call mktime) (newPlaylist start stop) calls =
        some ((replies (Shelf.call mktime) (Shelf.empty start stop) calls).1, pl) ∧
      Stands pl (replies (Shelf.call mktime) (Shelf.empty start stop) calls).2 :=
  serve_of_refines (fun _ _ c hstands ↦ exists_call_of_stands c hstands)
    (stands_newPlaylist start stop) calls

/-- Every list of calls to a new play list is answered as a shelf answers it. -/
theorem serve_eq_shelf (mktime : Tm → ℤ) (start stop : ℤ) (calls : List Call) :
    ∃ pl, serve (call mktime) (newPlaylist start stop) calls =
      some ((replies (Shelf.call mktime) (Shelf.empty start stop) calls).1, pl) := by
  obtain ⟨pl, hserve, -⟩ := exists_serve mktime start stop calls
  exact ⟨pl, hserve⟩

end Katmai.Playlist
