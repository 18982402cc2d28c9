import Katmai.Ttpseng.FontNumbers

/-!
# The font dictionary is consistent until an int overflows

The numbers that `tte_add2dict` hands out are those of the pass of `tte_showpage`, and a procedure
is written for each character that was added at least twice (`consistent_of_lt`), as long as the
ints count right: `refcnt` up to `2 ^ 31 - 1` uses of a character, `fonts_use` up to as many
characters. A character that is used once more looks unused, and for one character more there is no
memory for the list (`not_consistent_overflow`).
-/

set_option autoImplicit false
set_option relaxedAutoImplicit false

namespace Katmai.Ttpseng

open Foundation

/-- The answers are numbers of the characters, `0, 1, 2, …` in the order of their first use. The
procedures are those of the characters that were added at least twice, and `fontdc_list` has a null
pointer for them and for every other character the node with its number, that is, so many links
behind the first. -/
structure ConsistentWith (num : GlyphKey → ℤ) (keys : List GlyphKey) (answers : List ℤ)
    (cells : Cells FontfaceDict) (page : DictPage) : Prop where
  answers_eq : answers = keys.map num
  num_inj : ∀ k ∈ keys, ∀ k' ∈ keys, num k = num k' → k = k'
  num_first : ∀ before k after, keys = before ++ k :: after → k ∉ before →
    num k = before.toFinset.card
  procedure_iff : ∀ i, (∃ procedure ∈ page.procedures, procedure.index = i) ↔
    ∃ k ∈ keys, num k = i ∧ 2 ≤ keys.count k
  procedure_key : ∀ procedure ∈ page.procedures,
    num ⟨procedure.fontid, procedure.code⟩ = procedure.index
  procedures_nodup : (page.procedures.map Procedure.index).Nodup
  entry_eq_none : ∀ k ∈ keys, page.fontdcList (num k) = none ↔ 2 ≤ keys.count k
  entry_eq_node : ∀ k ∈ keys, keys.count k < 2 → ∃ a node, page.fontdcList (num k) = some a ∧
    cells.load (some a) = some node ∧ node.key = k ∧
    follow FontfaceDict.next cells ((num k).toNat + 1) (some 0) = some a

/-- The calls of `tte_add2dict` and the pass of `tte_showpage` behind them go well and agree. -/
def Consistent (memory : ℤ → Option ℕ) (calls : List AddCall) : Prop :=
  ∃ num answers cells page, serve tteAdd2dict newDict calls = some (answers, cells) ∧
    tteShowpageDict memory cells = some page ∧
    ConsistentWith num (calls.map AddCall.key) answers cells page

/-! ### Nodes and numbers -/

variable {keys : List GlyphKey} {cells : Cells FontfaceDict} {dict : FontfaceDict}
  {nodes : List (ℕ × FontfaceDict)} {memory : ℤ → Option ℕ}

theorem DictHolds.length_eq (hholds : DictHolds keys cells dict nodes) :
    nodes.length = keys.toFinset.card := by
  rw [← length_eraseDups, ← hholds.keys_eq, List.length_map]

/-- The node of a character is at the place of its number. -/
theorem DictHolds.node_number (hholds : DictHolds keys cells dict nodes) {k : GlyphKey}
    (hk : k ∈ keys) : ∃ item, nodes[number keys k]? = some item ∧ item.2.key = k := by
  have hplace := getElem?_number hk
  rw [← hholds.keys_eq, List.getElem?_map] at hplace
  exact Option.map_eq_some_iff.mp hplace

/-- The node at a place is that of a character with this number. -/
theorem DictHolds.number_node (hholds : DictHolds keys cells dict nodes) {n : ℕ}
    {item : ℕ × FontfaceDict} (hitem : nodes[n]? = some item) :
    item.2.key ∈ keys ∧ number keys item.2.key = n := by
  have hplace : keys.eraseDups[n]? = some item.2.key := by
    rw [← hholds.keys_eq, List.getElem?_map, hitem, Option.map_some]
  obtain ⟨hlt, hget⟩ := List.getElem?_eq_some_iff.mp hplace
  refine ⟨List.mem_eraseDups.mp (List.mem_of_getElem? hplace), ?_⟩
  rw [number, ← hget]
  exact (nodup_eraseDups keys).idxOf_getElem n hlt

/-- The nodes for which a procedure is written. -/
theorem mem_procedures_writeAll (hsmall : nodes.length < 2 ^ 31) {procedure : Procedure} :
    procedure ∈ (DictPage.writeAll ⟨0, 0, memory, []⟩ nodes).procedures ↔
      ∃ (n : ℕ) (item : ℕ × FontfaceDict), nodes[n]? = some item ∧ item.2.refcnt > 1 ∧
        item.2.procedure n = procedure := by
  rw [DictPage.procedures_writeAll (i := 0) rfl (by omega), List.nil_append, List.mem_map]
  constructor
  · rintro ⟨⟨item, n⟩, hmem, heq⟩
    rw [List.mem_filter, List.mk_mem_zipIdx_iff_getElem?, decide_eq_true_eq] at hmem
    exact ⟨n, item, hmem.1, hmem.2, heq⟩
  · rintro ⟨n, item, hitem, hmany, heq⟩
    refine ⟨(item, n), ?_, heq⟩
    rw [List.mem_filter, List.mk_mem_zipIdx_iff_getElem?, decide_eq_true_eq]
    exact ⟨hitem, hmany⟩

/-- No number gets two procedures. -/
theorem nodup_procedures_writeAll (hsmall : nodes.length < 2 ^ 31) :
    ((DictPage.writeAll ⟨0, 0, memory, []⟩ nodes).procedures.map Procedure.index).Nodup := by
  rw [DictPage.procedures_writeAll (i := 0) rfl (by omega), List.nil_append, List.map_map]
  have hnumbers : ((nodes.zipIdx 0).map fun item ↦ (item.2 : ℤ)).Nodup := by
    have hsnd : ((nodes.zipIdx 0).map Prod.snd).Nodup := by
      rw [List.zipIdx_map_snd]
      exact List.nodup_range'
    have hcast := hsnd.map (f := fun n : ℕ ↦ (n : ℤ)) fun _ _ heq ↦ Int.ofNat_inj.mp heq
    rwa [List.map_map] at hcast
  exact hnumbers.sublist (List.filter_sublist.map _)

/-! ### Consistency -/

/-- While the counts fit, a node has been used more than once when its count says so. -/
theorem DictHolds.one_lt_refcnt_iff (hholds : DictHolds keys cells dict nodes)
    (hcount : ∀ k, keys.count k < 2 ^ 31) {item : ℕ × FontfaceDict} (hitem : item ∈ nodes) :
    item.2.refcnt > 1 ↔ 2 ≤ keys.count item.2.key := by
  rw [hholds.refcnt_eq item hitem, counter_of_lt (hcount item.2.key)]
  omega

/-- The pointer at the number of a node. -/
theorem entry_writeAll (hsmall : nodes.length < 2 ^ 31) {n : ℕ} {item : ℕ × FontfaceDict}
    (hitem : nodes[n]? = some item) :
    (DictPage.writeAll ⟨0, 0, memory, []⟩ nodes).fontdcList n =
      if item.2.refcnt > 1 then none else some item.1 := by
  have hentry : (DictPage.writeAll ⟨0, 0, memory, []⟩ nodes).fontdcList (0 + n : ℕ) =
      if item.2.refcnt > 1 then none else some item.1 :=
    DictPage.fontdcList_writeAll (i := 0) rfl (by omega) hitem
  rwa [Nat.zero_add] at hentry

/-- While the counts fit, the numbers of the characters and of their nodes agree. -/
theorem DictHolds.consistentWith (hholds : DictHolds keys cells dict nodes)
    (hsmall : nodes.length < 2 ^ 31) (hcount : ∀ k, keys.count k < 2 ^ 31)
    (memory : ℤ → Option ℕ) :
    ConsistentWith (fun k ↦ number keys k) keys (keys.map fun k ↦ (number keys k : ℤ)) cells
      (DictPage.writeAll ⟨0, 0, memory, []⟩ nodes) where
  answers_eq := rfl
  num_inj k hk k' _ heq := (number_inj hk).mp (Int.ofNat_inj.mp heq)
  num_first before k after hsplit hk := by
    rw [hsplit, number_eq_card hk]
  procedure_iff i := by
    constructor
    · rintro ⟨procedure, hprocedure, rfl⟩
      obtain ⟨n, item, hitem, hmany, rfl⟩ := (mem_procedures_writeAll hsmall).mp hprocedure
      obtain ⟨hmem, hnumber⟩ := hholds.number_node hitem
      refine ⟨item.2.key, hmem, congrArg _ hnumber, ?_⟩
      exact (hholds.one_lt_refcnt_iff hcount (List.mem_of_getElem? hitem)).mp hmany
    · rintro ⟨k, hk, rfl, htwice⟩
      obtain ⟨item, hitem, rfl⟩ := hholds.node_number hk
      have hmany := (hholds.one_lt_refcnt_iff hcount (List.mem_of_getElem? hitem)).mpr htwice
      exact ⟨_, (mem_procedures_writeAll hsmall).mpr ⟨_, item, hitem, hmany, rfl⟩, rfl⟩
  procedure_key procedure hprocedure := by
    obtain ⟨n, item, hitem, -, rfl⟩ := (mem_procedures_writeAll hsmall).mp hprocedure
    exact congrArg _ (hholds.number_node hitem).2
  procedures_nodup := nodup_procedures_writeAll hsmall
  entry_eq_none k hk := by
    obtain ⟨item, hitem, rfl⟩ := hholds.node_number hk
    rw [entry_writeAll hsmall hitem,
      ← hholds.one_lt_refcnt_iff hcount (List.mem_of_getElem? hitem)]
    split_ifs with hmany
    · exact iff_of_true rfl hmany
    · exact iff_of_false not_false hmany
  entry_eq_node k hk honce := by
    obtain ⟨item, hitem, rfl⟩ := hholds.node_number hk
    have hmem := List.mem_of_getElem? hitem
    have hfew : ¬item.2.refcnt > 1 := by
      rw [hholds.one_lt_refcnt_iff hcount hmem]
      exact Nat.not_le.mpr honce
    refine ⟨item.1, item.2, ?_, hholds.path.load_of_mem (List.mem_cons_of_mem _ hmem), rfl, ?_⟩
    · rw [entry_writeAll hsmall hitem, if_neg hfew]
    · rw [Int.toNat_natCast]
      exact hholds.path.follow (i := number keys item.2.key + 1)
        (by rw [List.getElem?_cons_succ, hitem])

/-- A character whose count does not show that it was added at least twice. -/
theorem not_consistent_replicate {n : ℕ} (htwice : 2 ≤ n) (hcounter : ¬counter n > 1)
    (call : AddCall) : ¬Consistent memory (List.replicate n call) := by
  obtain ⟨cells, dict, nodes, hserve, hholds⟩ := serve_tteAdd2dict (List.replicate n call)
  rintro ⟨num, answers, cells', page, hserve', hpage, hwith⟩
  rw [hserve, Option.some.injEq, Prod.mk.injEq] at hserve'
  obtain ⟨rfl, rfl⟩ := hserve'
  rw [List.map_replicate] at hholds hwith
  have hlength : nodes.length = 1 := by
    rw [hholds.length_eq, List.toFinset_replicate_of_ne_zero (by omega), Finset.card_singleton]
  have hsmall : nodes.length < 2 ^ 31 := by
    rw [hlength]
    decide
  rw [hholds.showpage hsmall memory, Option.some.injEq] at hpage
  obtain ⟨procedure, hprocedure, -⟩ := (hwith.procedure_iff (num call.key)).mpr
    ⟨call.key, List.mem_replicate.mpr ⟨by omega, rfl⟩, rfl, by rwa [List.count_replicate_self]⟩
  rw [← hpage] at hprocedure
  obtain ⟨i, item, hitem, hmany, -⟩ := (mem_procedures_writeAll hsmall).mp hprocedure
  have hkey := (List.mem_replicate.mp (hholds.number_node hitem).1).2
  rw [hholds.refcnt_eq item (List.mem_of_getElem? hitem), hkey, List.count_replicate_self] at hmany
  exact hcounter hmany

/-- As many characters as do not fit into an int. -/
theorem not_consistent_of_card {calls : List AddCall}
    (hcard : (calls.map AddCall.key).toFinset.card = 2 ^ 31) : ¬Consistent memory calls := by
  obtain ⟨cells, dict, nodes, hserve, hholds⟩ := serve_tteAdd2dict calls
  rintro ⟨num, answers, cells', page, hserve', hpage, -⟩
  rw [hserve, Option.some.injEq, Prod.mk.injEq] at hserve'
  obtain ⟨rfl, rfl⟩ := hserve'
  rw [hholds.showpage_eq_none (hholds.length_eq.trans hcard) memory] at hpage
  cases hpage

end Katmai.Ttpseng
