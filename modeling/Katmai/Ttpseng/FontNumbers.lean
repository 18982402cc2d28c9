import Katmai.Foundation.FirstUses
import Katmai.Ttpseng.FontDict

/-!
# Numbers of the characters in the font dictionary

`DictHolds` is the invariant of the dictionary: its nodes are those of the different characters, in
the order of their first use, each with the number of its uses as an int. So `tte_add2dict` answers
with the number of the character (`DictHolds.add`), and the pass of `tte_showpage` goes through all
nodes in this order (`DictHolds.showpage`).
-/

set_option autoImplicit false
set_option relaxedAutoImplicit false

namespace Katmai.Ttpseng

open Foundation

/-! ### Counting in an int -/

/-- An int that has counted from zero. -/
def counter (n : ℕ) : ℤ :=
  Int.bmod n (2 ^ 32)

theorem incr_counter (n : ℕ) : incr (counter n) = counter (n + 1) := by
  unfold incr counter
  rw [Int.bmod_add_bmod, Int.natCast_add, Int.natCast_one]

theorem counter_of_lt {n : ℕ} (hn : n < 2 ^ 31) : counter n = n := by
  refine Int.bmod_eq_of_le_mul_two ?_ ?_ <;> omega

/-! ### The walk along the dictionary -/

variable {cells : Cells FontfaceDict} {call : AddCall} {first after : List (ℕ × FontfaceDict)}

theorem FontfaceDict.key_eq_iff (node : FontfaceDict) :
    node.key = call.key ↔ node.fontid = call.fid ∧ node.code = call.code := by
  rw [FontfaceDict.key, AddCall.key, GlyphKey.mk.injEq]

/-- One round of the walk, at a node that is not the last one. -/
theorem searchDict_next {prev ptr fuel : ℕ} {last node : FontfaceDict} {retval : ℤ}
    (hlast : cells.load (some prev) = some last) (hnext : last.next = some ptr)
    (hnode : cells.load (some ptr) = some node) :
    searchDict call cells (fuel + 1) prev retval =
      if node.key = call.key then some (.found ptr, retval)
      else searchDict call cells fuel ptr (incr retval) := by
  rw [searchDict, hlast, Option.bind_some]
  simp only [hnext, hnode, Option.bind_some, node.key_eq_iff]

/-- The walk stops at the node of the character. -/
theorem searchDict_found {prev a fuel : ℕ} {last node : FontfaceDict}
    (hpath : LinkPath FontfaceDict.next cells (some prev)
      ((prev, last) :: (first ++ (a, node) :: after)) none)
    (hother : ∀ item ∈ first, item.2.key ≠ call.key) (hnode : node.key = call.key)
    (hfuel : first.length < fuel) (r : ℕ) :
    searchDict call cells fuel prev (counter r) =
      some (.found a, counter (r + first.length)) := by
  induction first generalizing prev last fuel r with
  | nil =>
    obtain ⟨fuel, rfl⟩ := Nat.exists_eq_add_one_of_ne_zero (Nat.ne_zero_of_lt hfuel)
    obtain ⟨-, hlast, hnext, hload, -⟩ := hpath
    rw [searchDict_next hlast hnext hload, if_pos hnode]
    rfl
  | cons item first ih =>
    obtain ⟨fuel, rfl⟩ := Nat.exists_eq_add_one_of_ne_zero (Nat.ne_zero_of_lt hfuel)
    obtain ⟨-, hlast, hnext, hload, hrest⟩ := hpath
    have hitem : LinkPath FontfaceDict.next cells (some item.1)
        ((item.1, item.2) :: (first ++ (a, node) :: after)) none := ⟨rfl, hload, hrest⟩
    rw [searchDict_next hlast hnext hload, if_neg (hother item List.mem_cons_self), incr_counter,
      ih hitem (fun item' hitem' ↦ hother item' (List.mem_cons_of_mem item hitem'))
        (Nat.lt_of_succ_lt_succ hfuel),
      List.length_cons, Nat.add_assoc, Nat.add_comm 1]

/-- Without a node of the character the walk stops behind the last node. -/
theorem searchDict_behind {prev fuel t : ℕ} {last : FontfaceDict}
    (hpath : LinkPath FontfaceDict.next cells (some prev) (first ++ [(t, last)]) none)
    (hother : ∀ item ∈ (first ++ [(t, last)]).tail, item.2.key ≠ call.key)
    (hfuel : first.length < fuel) (r : ℕ) :
    searchDict call cells fuel prev (counter r) =
      some (.behind t, counter (r + first.length)) := by
  induction first generalizing prev fuel r with
  | nil =>
    obtain ⟨fuel, rfl⟩ := Nat.exists_eq_add_one_of_ne_zero (Nat.ne_zero_of_lt hfuel)
    obtain ⟨hprev, hlast, hnext⟩ := hpath
    rw [Option.some.injEq] at hprev
    subst hprev
    rw [searchDict, hlast, Option.bind_some]
    simp only [show last.next = none from hnext]
    rfl
  | cons item first ih =>
    obtain ⟨fuel, rfl⟩ := Nat.exists_eq_add_one_of_ne_zero (Nat.ne_zero_of_lt hfuel)
    obtain ⟨hprev, hitem, hrest⟩ := hpath
    rw [Option.some.injEq] at hprev
    rw [List.cons_append, List.tail_cons] at hother
    -- the next node, which is the last one when no more are in front of it
    obtain ⟨head, rest, hsplit⟩ : ∃ head rest, first ++ [(t, last)] = head :: rest :=
      List.exists_cons_of_ne_nil (by simp)
    have hfirst : LinkPath FontfaceDict.next cells item.2.next (head :: rest) none := by
      rw [← hsplit]
      exact hrest
    rw [hprev, searchDict_next hitem hfirst.1 hfirst.2.1,
      if_neg (hother head (hsplit ▸ List.mem_cons_self)), incr_counter,
      ih (hfirst.1 ▸ hrest) (fun item' hitem' ↦ hother item' (List.mem_of_mem_tail hitem'))
        (Nat.lt_of_succ_lt_succ hfuel),
      List.length_cons, Nat.add_assoc, Nat.add_comm 1]

/-! ### The invariant of the dictionary -/

/-- The dictionary after the characters `keys`: behind `dict` there is a node for each of them, in
the order of their first use, with the number of its uses. -/
structure DictHolds (keys : List GlyphKey) (cells : Cells FontfaceDict) (dict : FontfaceDict)
    (nodes : List (ℕ × FontfaceDict)) : Prop where
  path : LinkPath FontfaceDict.next cells (some 0) ((0, dict) :: nodes) none
  keys_eq : nodes.map (fun item ↦ item.2.key) = keys.eraseDups
  refcnt_eq : ∀ item ∈ nodes, item.2.refcnt = counter (keys.count item.2.key)

variable {keys : List GlyphKey} {dict : FontfaceDict} {nodes : List (ℕ × FontfaceDict)}

theorem dictHolds_new : DictHolds [] newDict ⟨0, 0, 0, 0, none⟩ [] :=
  ⟨⟨rfl, rfl, rfl⟩, rfl, fun _ hitem ↦ absurd hitem List.not_mem_nil⟩

theorem DictHolds.length_lt (hholds : DictHolds keys cells dict nodes) :
    nodes.length < cells.length :=
  hholds.path.length_le

/-- The node of a character, with the number of the character in front of it. -/
theorem DictHolds.split (hholds : DictHolds keys cells dict nodes) {key : GlyphKey}
    (hkey : key ∈ keys) :
    ∃ before a node after, nodes = before ++ (a, node) :: after ∧ node.key = key ∧
      before.length = number keys key ∧ (∀ item ∈ before, item.2.key ≠ key) ∧
      ∀ item ∈ after, item.2.key ≠ key := by
  have hmem : key ∈ nodes.map fun item ↦ item.2.key := by
    rw [hholds.keys_eq]
    exact List.mem_eraseDups.mpr hkey
  obtain ⟨⟨a, node⟩, hitem, rfl⟩ := List.mem_map.mp hmem
  obtain ⟨before, after, rfl⟩ := List.append_of_mem hitem
  have hnodup := nodup_eraseDups keys
  have hkeys := hholds.keys_eq
  rw [List.map_append, List.map_cons] at hkeys
  rw [← hkeys, List.nodup_append, List.nodup_cons] at hnodup
  obtain ⟨-, ⟨hafter, -⟩, hapart⟩ := hnodup
  have hbefore : node.key ∉ before.map fun item ↦ item.2.key := fun hin ↦
    hapart _ hin _ List.mem_cons_self rfl
  refine ⟨before, a, node, after, rfl, rfl, ?_, fun item hin heq ↦ hbefore ?_,
    fun item hin heq ↦ hafter ?_⟩
  · rw [number, ← hkeys, List.idxOf_append_of_notMem hbefore, List.idxOf_cons_self,
      List.length_map, Nat.add_zero]
  · exact List.mem_map.mpr ⟨item, hin, heq⟩
  · exact List.mem_map.mpr ⟨item, hin, heq⟩

/-- A character that is in the dictionary is counted at its node. -/
theorem DictHolds.add_of_mem (hholds : DictHolds keys cells dict nodes)
    (hkey : call.key ∈ keys) :
    ∃ cells' nodes', tteAdd2dict cells call = some (counter (number keys call.key), cells') ∧
      DictHolds (keys ++ [call.key]) cells' dict nodes' := by
  obtain ⟨before, a, node, after, rfl, hnode, hnumber, hbefore, hafter⟩ := hholds.split hkey
  have hlength := hholds.length_lt
  have hfuel : before.length < cells.length + 1 := by
    rw [List.length_append] at hlength
    omega
  have hsearch := searchDict_found hholds.path hbefore hnode hfuel 0
  have hlinked : LinkPath FontfaceDict.next cells (some 0)
      ((0, dict) :: before ++ (a, node) :: after) none := hholds.path
  obtain ⟨cells', hupdate, hpath⟩ := hlinked.touchAt
    (g := fun node ↦ { node with refcnt := incr node.refcnt }) fun _ ↦ rfl
  refine ⟨cells', before ++ (a, { node with refcnt := incr node.refcnt }) :: after, ?_, hpath, ?_,
    ?_⟩
  · rw [tteAdd2dict, show (0 : ℤ) = counter 0 from rfl, hsearch, Option.bind_some]
    simp only [hupdate, Option.map_some, Nat.zero_add, hnumber]
  · rw [eraseDups_concat_of_mem hkey, ← hholds.keys_eq, List.map_append, List.map_append,
      List.map_cons, List.map_cons]
    rfl
  · intro item hitem
    have hother : ∀ item ∈ before ++ (a, node) :: after, item.2.key ≠ call.key →
        item.2.refcnt = counter ((keys ++ [call.key]).count item.2.key) := by
      intro item hitem hne
      rw [hholds.refcnt_eq item hitem, List.count_append, List.count_singleton,
        beq_false_of_ne hne.symm]
      rfl
    rw [List.mem_append, List.mem_cons] at hitem
    rcases hitem with hitem | rfl | hitem
    · exact hother item (List.mem_append_left _ hitem) (hbefore item hitem)
    · have hold := hholds.refcnt_eq (a, node) (List.mem_append_right _ List.mem_cons_self)
      change incr node.refcnt = counter ((keys ++ [call.key]).count node.key)
      rw [hold, incr_counter, hnode, List.count_append, List.count_singleton_self]
    · exact hother item (List.mem_append_right _ (List.mem_cons_of_mem _ hitem))
        (hafter item hitem)

/-- What is counted does not change when a node is linked behind the last one, which may be `dict`
itself. -/
theorem exists_linked {first : List (ℕ × FontfaceDict)} {t : ℕ} {last : FontfaceDict}
    (hfirst : (0, dict) :: nodes = first ++ [(t, last)]) (next : Option ℕ) :
    ∃ dict' nodes', first ++ [(t, { last with next := next })] = (0, dict') :: nodes' ∧
      nodes'.map (fun item ↦ (item.2.key, item.2.refcnt)) =
        nodes.map fun item ↦ (item.2.key, item.2.refcnt) := by
  cases first with
  | nil =>
    rw [List.nil_append, List.cons.injEq, Prod.mk.injEq] at hfirst
    obtain ⟨⟨rfl, rfl⟩, rfl⟩ := hfirst
    exact ⟨_, [], rfl, rfl⟩
  | cons head first =>
    rw [List.cons_append, List.cons.injEq] at hfirst
    obtain ⟨rfl, rfl⟩ := hfirst
    refine ⟨dict, first ++ [(t, { last with next := next })], rfl, ?_⟩
    rw [List.map_append, List.map_append]
    rfl

/-- A character that was not added has no node. -/
theorem DictHolds.key_ne (hholds : DictHolds keys cells dict nodes) {key : GlyphKey}
    (hkey : key ∉ keys) {item : ℕ × FontfaceDict} (hitem : item ∈ nodes) : item.2.key ≠ key := by
  intro heq
  have hmem : key ∈ nodes.map fun item ↦ item.2.key := List.mem_map.mpr ⟨item, hitem, heq⟩
  rw [hholds.keys_eq] at hmem
  exact hkey (List.mem_eraseDups.mp hmem)

/-- With a node for a new character behind the others, the invariant holds of one character more. -/
theorem DictHolds.link (hholds : DictHolds keys cells dict nodes) {cells' : Cells FontfaceDict}
    {dict' new : FontfaceDict} {nodes' : List (ℕ × FontfaceDict)} {a : ℕ}
    (hpath : LinkPath FontfaceDict.next cells' (some 0) ((0, dict') :: (nodes' ++ [(a, new)])) none)
    (hsame : nodes'.map (fun item ↦ (item.2.key, item.2.refcnt)) =
      nodes.map fun item ↦ (item.2.key, item.2.refcnt))
    (hkey : new.key ∉ keys) (hone : new.refcnt = 1) :
    DictHolds (keys ++ [new.key]) cells' dict' (nodes' ++ [(a, new)]) where
  path := hpath
  keys_eq := by
    have hkeys := congrArg (List.map Prod.fst) hsame
    rw [List.map_map, List.map_map] at hkeys
    rw [eraseDups_concat_of_notMem hkey, ← hholds.keys_eq, List.map_append]
    exact congrArg (· ++ [new.key]) hkeys
  refcnt_eq item hitem := by
    rw [List.count_append, List.count_singleton]
    rw [List.mem_append, List.mem_singleton] at hitem
    rcases hitem with hitem | rfl
    · have hmem : (item.2.key, item.2.refcnt) ∈
          nodes.map fun item ↦ (item.2.key, item.2.refcnt) := by
        rw [← hsame]
        exact List.mem_map.mpr ⟨item, hitem, rfl⟩
      obtain ⟨old, hold, heq⟩ := List.mem_map.mp hmem
      rw [Prod.mk.injEq] at heq
      have hne : new.key ≠ item.2.key := heq.1 ▸ (hholds.key_ne hkey hold).symm
      rw [beq_false_of_ne hne, ← heq.2, hholds.refcnt_eq old hold, heq.1]
      rfl
    · rw [beq_self_eq_true, List.count_eq_zero_of_not_mem hkey, hone]
      rfl

/-- A character that is not in the dictionary gets a node behind the last one. -/
theorem DictHolds.add_of_notMem (hholds : DictHolds keys cells dict nodes)
    (hkey : call.key ∉ keys) :
    ∃ cells' dict' nodes',
      tteAdd2dict cells call = some (counter (number keys call.key), cells') ∧
      DictHolds (keys ++ [call.key]) cells' dict' nodes' := by
  obtain ⟨first, ⟨t, last⟩, hfirst⟩ : ∃ first item, (0, dict) :: nodes = first ++ [item] :=
    ⟨_, _, (List.dropLast_append_getLast (List.cons_ne_nil (0, dict) nodes)).symm⟩
  have hpath := hholds.path
  have hlength := hholds.length_lt
  have hcount : nodes.length = first.length := by
    have hlengths := congrArg List.length hfirst
    rwa [List.length_cons, List.length_append, List.length_singleton, Nat.succ.injEq] at hlengths
  have hother : ∀ item ∈ (first ++ [(t, last)]).tail, item.2.key ≠ call.key := by
    rw [← hfirst]
    exact fun item hitem ↦ hholds.key_ne hkey hitem
  rw [hfirst] at hpath
  have hsearch : searchDict call cells (cells.length + 1) 0 (counter 0) =
      some (.behind t, counter (0 + first.length)) :=
    searchDict_behind hpath hother (by omega) 0
  obtain ⟨cells', hupdate, hlinked⟩ := hpath.allocLinked
    (f := fun last ↦ { last with next := some cells.length })
    ⟨call.fid, call.code, call.unicode, 1, none⟩ rfl rfl
  obtain ⟨dict', nodes', hnodes', hsame⟩ := exists_linked hfirst (some cells.length)
  rw [List.append_cons, hnodes', List.cons_append] at hlinked
  have hnumber : number keys call.key = first.length := by
    rw [← hcount, number_of_notMem hkey, ← length_eraseDups, ← hholds.keys_eq, List.length_map]
  refine ⟨cells', dict', _, ?_, hholds.link hlinked hsame hkey rfl⟩
  rw [tteAdd2dict, show (0 : ℤ) = counter 0 from rfl, hsearch, Option.bind_some]
  simp only [hupdate, Option.map_some, Nat.zero_add, hnumber]

/-- `tte_add2dict` answers with the number of the character. -/
theorem DictHolds.add (hholds : DictHolds keys cells dict nodes) (call : AddCall) :
    ∃ cells' dict' nodes',
      tteAdd2dict cells call = some (counter (number keys call.key), cells') ∧
      DictHolds (keys ++ [call.key]) cells' dict' nodes' := by
  by_cases hkey : call.key ∈ keys
  · obtain ⟨cells', nodes', hadd, hholds'⟩ := hholds.add_of_mem hkey
    exact ⟨cells', dict, nodes', hadd, hholds'⟩
  · exact hholds.add_of_notMem hkey

/-! ### Runs -/

/-- What `tte_add2dict` answers, of the characters that were added before. -/
def dictSpec (keys : List GlyphKey) (call : AddCall) : ℤ × List GlyphKey :=
  (counter (number keys call.key), keys ++ [call.key])

theorem replies_dictSpec (keys : List GlyphKey) (calls : List AddCall) :
    replies dictSpec keys calls =
      (calls.map fun call ↦ counter (number (keys ++ calls.map AddCall.key) call.key),
        keys ++ calls.map AddCall.key) := by
  induction calls generalizing keys with
  | nil => exact Prod.ext rfl (List.append_nil keys).symm
  | cons call rest ih =>
    rw [replies, dictSpec, ih, List.map_cons, ← List.append_cons, List.map_cons,
      number_append_cons]

/-- Every list of calls is answered with the numbers of the characters. -/
theorem serve_tteAdd2dict (calls : List AddCall) :
    ∃ cells dict nodes,
      serve tteAdd2dict newDict calls =
        some (calls.map fun call ↦ counter (number (calls.map AddCall.key) call.key), cells) ∧
      DictHolds (calls.map AddCall.key) cells dict nodes := by
  have hnew : ∃ dict nodes, DictHolds [] newDict dict nodes := ⟨_, _, dictHolds_new⟩
  have hstep : ∀ cells keys call, (∃ dict nodes, DictHolds keys cells dict nodes) →
      ∃ cells', tteAdd2dict cells call = some ((dictSpec keys call).1, cells') ∧
        ∃ dict nodes, DictHolds (dictSpec keys call).2 cells' dict nodes := by
    rintro cells keys call ⟨dict, nodes, hholds⟩
    obtain ⟨cells', dict', nodes', hadd, hholds'⟩ := hholds.add call
    refine ⟨cells', ?_, ⟨dict', nodes', hholds'⟩⟩
    rw [hadd, dictSpec]
  obtain ⟨cells, hserve, dict, nodes, hholds⟩ := serve_of_refines hstep hnew calls
  rw [replies_dictSpec] at hserve hholds
  exact ⟨cells, dict, nodes, hserve, hholds⟩

/-! ### The pass over the nodes -/

theorem countFonts_eq {p : Option ℕ} (hpath : LinkPath FontfaceDict.next cells p nodes none)
    {fuel : ℕ} (hfuel : nodes.length < fuel) (r : ℕ) :
    countFonts cells fuel p (counter r) = some (counter (r + nodes.length)) := by
  induction nodes generalizing p fuel r with
  | nil =>
    obtain rfl : p = none := hpath
    obtain ⟨fuel, rfl⟩ := Nat.exists_eq_add_one_of_ne_zero (Nat.ne_zero_of_lt hfuel)
    rfl
  | cons item nodes ih =>
    obtain ⟨fuel, rfl⟩ := Nat.exists_eq_add_one_of_ne_zero (Nat.ne_zero_of_lt hfuel)
    obtain ⟨rfl, hload, hrest⟩ := hpath
    rw [countFonts, hload, Option.bind_some, incr_counter, ih hrest (Nat.lt_of_succ_lt_succ hfuel),
      List.length_cons, Nat.add_assoc, Nat.add_comm 1]

namespace DictPage

theorem writeFont_i (page : DictPage) (fontdc : ℕ) (node : FontfaceDict) :
    (page.writeFont fontdc node).i = incr page.i := by
  unfold writeFont
  split_ifs <;> rfl

theorem writeFont_fontdcList (page : DictPage) (fontdc : ℕ) (node : FontfaceDict) :
    (page.writeFont fontdc node).fontdcList =
      Function.update page.fontdcList page.i (if node.refcnt > 1 then none else some fontdc) := by
  unfold writeFont
  split_ifs <;> rfl

theorem writeFont_procedures (page : DictPage) (fontdc : ℕ) (node : FontfaceDict) :
    (page.writeFont fontdc node).procedures =
      page.procedures ++ if node.refcnt > 1 then [node.procedure page.i] else [] := by
  unfold writeFont
  split_ifs
  · rfl
  · exact (List.append_nil _).symm

/-- The page after all nodes. -/
def writeAll (page : DictPage) (nodes : List (ℕ × FontfaceDict)) : DictPage :=
  nodes.foldl (fun page item ↦ page.writeFont item.1 item.2) page

theorem writeAll_cons (page : DictPage) (item : ℕ × FontfaceDict)
    (nodes : List (ℕ × FontfaceDict)) :
    page.writeAll (item :: nodes) = (page.writeFont item.1 item.2).writeAll nodes :=
  rfl

variable {page : DictPage} {i : ℕ}

/-- After a node the next number is counted. -/
theorem writeFont_i_of_lt (hi : page.i = i) (hlt : i + 1 < 2 ^ 31) (item : ℕ × FontfaceDict) :
    (page.writeFont item.1 item.2).i = (i + 1 : ℕ) := by
  rw [writeFont_i, hi, ← counter_of_lt (Nat.lt_of_succ_lt hlt), incr_counter, counter_of_lt hlt]

/-- The pointers before the number of the first node stay. -/
theorem fontdcList_writeAll_of_lt (hi : page.i = i) (hsmall : i + nodes.length < 2 ^ 31) {j : ℤ}
    (hj : j < i) : (page.writeAll nodes).fontdcList j = page.fontdcList j := by
  induction nodes generalizing page i with
  | nil => rfl
  | cons item nodes ih =>
    rw [List.length_cons] at hsmall
    rw [writeAll_cons, ih (writeFont_i_of_lt hi (by omega) item) (by omega) (by omega),
      writeFont_fontdcList, Function.update_of_ne (by omega)]

/-- The pointer at the number of a node. -/
theorem fontdcList_writeAll (hi : page.i = i) (hsmall : i + nodes.length < 2 ^ 31) {k : ℕ}
    {item : ℕ × FontfaceDict} (hitem : nodes[k]? = some item) :
    (page.writeAll nodes).fontdcList (i + k : ℕ) =
      if item.2.refcnt > 1 then none else some item.1 := by
  induction nodes generalizing page i k with
  | nil => cases hitem
  | cons head nodes ih =>
    rw [List.length_cons] at hsmall
    have hnext := writeFont_i_of_lt hi (by omega) head
    rw [writeAll_cons]
    cases k with
    | zero =>
      rw [List.getElem?_cons_zero, Option.some.injEq] at hitem
      rw [fontdcList_writeAll_of_lt hnext (by omega) (by omega), writeFont_fontdcList, hi,
        Nat.add_zero, Function.update_self, hitem]
    | succ k =>
      have hlater := ih hnext (by omega) hitem
      rwa [Nat.add_assoc, Nat.add_comm 1] at hlater

/-- A procedure is written at the number of each node that is used more than once. -/
theorem procedures_writeAll (hi : page.i = i) (hsmall : i + nodes.length < 2 ^ 31) :
    (page.writeAll nodes).procedures = page.procedures ++
      ((nodes.zipIdx i).filter fun item ↦ item.1.2.refcnt > 1).map
        fun item ↦ item.1.2.procedure item.2 := by
  induction nodes generalizing page i with
  | nil => exact (List.append_nil _).symm
  | cons item nodes ih =>
    rw [List.length_cons] at hsmall
    rw [writeAll_cons, ih (writeFont_i_of_lt hi (by omega) item) (by omega), writeFont_procedures,
      List.zipIdx_cons, List.filter_cons, List.append_assoc, hi]
    by_cases hmany : item.2.refcnt > 1
    · simp [hmany]
    · simp [hmany]

end DictPage

/-- With room for all nodes the loop goes through all of them. -/
theorem writeFonts_eq {p : Option ℕ} (hpath : LinkPath FontfaceDict.next cells p nodes none)
    {fuel : ℕ} (hfuel : nodes.length < fuel) {page : DictPage} {i n : ℕ} (hi : page.i = i)
    (hn : i + nodes.length ≤ n) (hsmall : n < 2 ^ 31) :
    writeFonts cells n fuel p page = some (page.writeAll nodes) := by
  induction nodes generalizing p fuel page i with
  | nil =>
    obtain rfl : p = none := hpath
    obtain ⟨fuel, rfl⟩ := Nat.exists_eq_add_one_of_ne_zero (Nat.ne_zero_of_lt hfuel)
    rfl
  | cons item nodes ih =>
    rw [List.length_cons] at hn hfuel
    obtain ⟨fuel, rfl⟩ := Nat.exists_eq_add_one_of_ne_zero (Nat.ne_zero_of_lt hfuel)
    obtain ⟨rfl, hload, hrest⟩ := hpath
    rw [writeFonts, hload, Option.bind_some, if_pos (by omega),
      ih hrest (by omega) (DictPage.writeFont_i_of_lt hi (by omega) item) (by omega),
      DictPage.writeAll_cons]

/-- `tte_showpage` goes through all nodes of a dictionary that has fewer than `2 ^ 31` of them. -/
theorem DictHolds.showpage (hholds : DictHolds keys cells dict nodes)
    (hsmall : nodes.length < 2 ^ 31) (memory : ℤ → Option ℕ) :
    tteShowpageDict memory cells =
      some (DictPage.writeAll ⟨0, 0, memory, []⟩ nodes) := by
  have hlength := hholds.length_lt
  have hcount := countFonts_eq hholds.path.2.2 (Nat.lt_succ_of_lt hlength) 0
  rw [Nat.zero_add, counter_of_lt hsmall] at hcount
  rw [tteShowpageDict, hholds.path.2.1, Option.bind_some, show (0 : ℤ) = counter 0 from rfl, hcount,
    Option.bind_some]
  exact writeFonts_eq hholds.path.2.2 (Nat.lt_succ_of_lt hlength) (i := 0) rfl (by omega) hsmall

/-- The list of pointers cannot be allocated for `2 ^ 31` nodes. -/
theorem DictHolds.showpage_eq_none (hholds : DictHolds keys cells dict nodes)
    (hlarge : nodes.length = 2 ^ 31) (memory : ℤ → Option ℕ) :
    tteShowpageDict memory cells = none := by
  have hlength := hholds.length_lt
  have hcount := countFonts_eq hholds.path.2.2 (Nat.lt_succ_of_lt hlength) 0
  rw [Nat.zero_add, hlarge] at hcount
  obtain ⟨item, nodes, rfl⟩ := List.exists_cons_of_length_pos (show 0 < nodes.length by omega)
  obtain ⟨-, hload, hfirst, hitem, -⟩ := hholds.path
  rw [tteShowpageDict, hload, Option.bind_some, show (0 : ℤ) = counter 0 from rfl, hcount,
    Option.bind_some, hfirst, writeFonts, hitem, Option.bind_some]
  exact if_neg fun hroom ↦ absurd hroom.2 (show ¬counter 0 < counter (2 ^ 31) by decide)

end Katmai.Ttpseng
