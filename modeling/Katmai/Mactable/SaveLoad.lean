import Katmai.Mactable.AddedPairs

/-!
# Saving and loading a table

A line of the file is an address, at least three blanks and a MAC address. Each step of loading is
exact on it: the line is not cut short, the regular expression has one way to split it, both groups
fit into their buffers and both parsers give back what was written (`loadLine_saveLine`). The pairs
of a reached table are pairwise different (`Reached.wellFormed`), so each line fills the next slot
(`foldl_loadLine`).
-/

set_option autoImplicit false
set_option relaxedAutoImplicit false

namespace Katmai.Mactable

open Foundation Misclib

variable {inetAton : List Char → Option (BitVec 32)} {self : MacTable} {e : IpmacTable}

/-! ### One line -/

/-- A character that ends no string and is trimmed by nothing. -/
def IsPlain (c : Char) : Prop :=
  isBlank c = false ∧ isLineEnd c = false ∧ c ≠ '\x00' ∧ c ≠ '#' ∧ c ≠ ';'

theorem isIpChar_of_isDigit {c : Char} (hc : c.isDigit = true) :
    isIpChar c = true ∧ IsPlain c := by
  refine ⟨?_, ?_⟩
  · simp only [Char.isDigit, Bool.and_eq_true, decide_eq_true_eq] at hc
    simp only [isIpChar, Bool.or_eq_true, Bool.and_eq_true, decide_eq_true_eq]
    exact .inr hc
  · have hne {d : Char} (hd : d.isDigit = false) : c ≠ d := by
      rintro rfl
      exact Bool.false_ne_true (hd.symm.trans hc)
    simp only [IsPlain, isBlank, isLineEnd, Bool.or_eq_false_iff, beq_eq_false_iff_ne]
    exact ⟨⟨hne (by decide), hne (by decide)⟩, ⟨hne (by decide), hne (by decide)⟩,
      hne (by decide), hne (by decide), hne (by decide)⟩

theorem mem_inetNtoa {ip : BitVec 32} {c : Char} (hc : c ∈ inetNtoa ip) :
    isIpChar c = true ∧ IsPlain c := by
  have hbyte {n : ℕ} (hc : c ∈ Nat.toDigits 10 n) : isIpChar c = true ∧ IsPlain c :=
    isIpChar_of_isDigit (Nat.isDigit_of_mem_toDigits (by decide) (by decide) hc)
  have hdot (hc : c = '.') : isIpChar c = true ∧ IsPlain c := by
    subst hc
    unfold IsPlain
    decide
  simp only [inetNtoa, List.mem_append, List.mem_cons] at hc
  rcases hc with ((hc | hc | hc) | hc | hc) | hc | hc
  · exact hbyte hc
  · exact hdot hc
  · exact hbyte hc
  · exact hdot hc
  · exact hbyte hc
  · exact hdot hc
  · exact hbyte hc

theorem inetNtoa_ne_nil (ip : BitVec 32) : inetNtoa ip ≠ [] := by
  simp [inetNtoa]

theorem length_inetNtoa_le (ip : BitVec 32) : (inetNtoa ip).length ≤ 15 := by
  have hbyte (n : ℕ) : (Nat.toDigits 10 (n % 256)).length ≤ 3 :=
    (Nat.length_toDigits_le_iff (by decide) (by decide)).mpr
      ((Nat.mod_lt n (by decide)).trans (by decide))
  have h3 := hbyte (ip.toNat / 256 ^ 3)
  have h2 := hbyte (ip.toNat / 256 ^ 2)
  have h1 := hbyte (ip.toNat / 256 ^ 1)
  have h0 := hbyte (ip.toNat / 256 ^ 0)
  simp only [inetNtoa, List.length_append, List.length_cons]
  omega

theorem hexChar_plain {n : ℕ} (hn : n < 16) :
    isMacChar (hexChar n) = true ∧ IsPlain (hexChar n) := by
  have hall : ∀ n < 16, isMacChar (hexChar n) = true ∧ isBlank (hexChar n) = false ∧
      isLineEnd (hexChar n) = false ∧ hexChar n ≠ '\x00' ∧ hexChar n ≠ '#' ∧ hexChar n ≠ ';' := by
    decide
  exact hall n hn

theorem mem_hexByte {b : BitVec 8} {c : Char} (hc : c ∈ hexByte b) :
    isMacChar c = true ∧ IsPlain c := by
  have hlt := b.isLt
  simp only [hexByte, List.mem_cons, List.not_mem_nil, or_false] at hc
  rcases hc with rfl | rfl
  · exact hexChar_plain (by omega)
  · exact hexChar_plain (by omega)

theorem macAddress_cons_cons (b b' : BitVec 8) (mac : List (BitVec 8)) :
    macAddress (b :: b' :: mac) = hexByte b ++ ':' :: macAddress (b' :: mac) :=
  rfl

theorem mem_macAddress {mac : List (BitVec 8)} {c : Char} (hc : c ∈ macAddress mac) :
    isMacChar c = true ∧ IsPlain c := by
  induction mac with
  | nil => exact absurd hc List.not_mem_nil
  | cons b mac ih =>
    cases mac with
    | nil => exact mem_hexByte hc
    | cons b' mac =>
      rw [macAddress_cons_cons, List.mem_append, List.mem_cons] at hc
      rcases hc with hc | rfl | hc
      · exact mem_hexByte hc
      · unfold IsPlain
        decide
      · exact ih hc

theorem length_macAddress (mac : List (BitVec 8)) :
    (macAddress mac).length = 3 * mac.length - 1 := by
  induction mac with
  | nil => rfl
  | cons b mac ih =>
    cases mac with
    | nil => rfl
    | cons b' mac =>
      rw [macAddress_cons_cons, List.length_append, List.length_cons, ih]
      simp only [hexByte, List.length_cons, List.length_nil]
      omega

/-- The blanks of a line. -/
def blanks (e : IpmacTable) : List Char :=
  List.replicate (18 - (inetNtoa e.ip).length) ' ' ++ [' ']

/-- A line without its line end. -/
def lineBody (e : IpmacTable) : List Char :=
  inetNtoa e.ip ++ (blanks e ++ macAddress e.mac)

theorem saveLine_eq (e : IpmacTable) : saveLine e = lineBody e ++ ['\n'] := by
  simp [saveLine, lineBody, blanks]

theorem mem_blanks {c : Char} (hc : c ∈ blanks e) : c = ' ' := by
  rcases List.mem_append.mp hc with hc | hc
  · exact List.eq_of_mem_replicate hc
  · exact List.mem_singleton.mp hc

theorem mem_lineBody {c : Char} (hc : c ∈ lineBody e) : isLineEnd c = false ∧ c ≠ '\x00' := by
  rcases List.mem_append.mp hc with hc | hc
  · exact ⟨(mem_inetNtoa hc).2.2.1, (mem_inetNtoa hc).2.2.2.1⟩
  · rcases List.mem_append.mp hc with hc | hc
    · rw [mem_blanks hc]
      decide
    · exact ⟨(mem_macAddress hc).2.2.1, (mem_macAddress hc).2.2.2.1⟩

/-- What is left of a line that is read: all but the line end. -/
theorem trimmed_saveLine (hmac : e.mac.length = 6) :
    rtrim (chomp (cString (saveLine e))) = lineBody e := by
  have hzero : '\x00' ∉ saveLine e := by
    rw [saveLine_eq, List.mem_append, not_or]
    exact ⟨fun h ↦ (mem_lineBody h).2 rfl, by decide⟩
  -- The line ends in a hexadecimal digit.
  have hlast : macAddress e.mac ≠ [] := by
    intro hnil
    have hlength := length_macAddress e.mac
    rw [hnil, hmac] at hlength
    exact absurd hlength (by decide)
  obtain ⟨front, c, hfront⟩ : ∃ front c, macAddress e.mac = front ++ [c] :=
    ⟨_, _, (List.dropLast_append_getLast hlast).symm⟩
  have hc : IsPlain c := (mem_macAddress (hfront ▸ List.mem_append_right _ List.mem_cons_self)).2
  have hbody : lineBody e = inetNtoa e.ip ++ (blanks e ++ front) ++ [c] := by
    simp [lineBody, hfront]
  rw [cString_eq_self hzero, chomp_eq, saveLine_eq, List.rdropWhile_concat_pos _ _ _ (by decide),
    hbody, rdropWhile_concat_of_not hc.2.1, rtrim_eq, rdropWhile_concat_of_not hc.1]

theorem loadRegex_search (hmac : e.mac ≠ []) :
    loadRegex.search (lineBody e) =
      some (0, [(inetNtoa e.ip).length, (blanks e).length, (macAddress e.mac).length]) := by
  have hblanks : blanks e ≠ [] := List.append_ne_nil_of_right_ne_nil _ (List.cons_ne_nil _ _)
  have hspelled : macAddress e.mac ≠ [] := by
    intro hnil
    have hlength := length_macAddress e.mac
    rw [hnil, List.length_nil] at hlength
    have hpos := List.length_pos_iff.mpr hmac
    omega
  -- No digit or dot is a blank, and no blank is part of a MAC address.
  have hip (n : ℕ) (hlt : n < (inetNtoa e.ip).length) : matchesAt false (loadRegex.pieces.drop 1)
      ((inetNtoa e.ip).drop n ++ (blanks e ++ macAddress e.mac)) = [] := by
    obtain ⟨c, rest, hrest⟩ := List.exists_cons_of_length_pos
      (l := (inetNtoa e.ip).drop n) (by rw [List.length_drop]; omega)
    have hc : c ∈ inetNtoa e.ip := List.mem_of_mem_drop (hrest ▸ List.mem_cons_self)
    rw [hrest]
    exact matchesAt_of_not (mem_inetNtoa hc).2.1
  have hblank (n : ℕ) (hlt : n < (blanks e).length) : matchesAt false (loadRegex.pieces.drop 2)
      ((blanks e).drop n ++ macAddress e.mac) = [] := by
    obtain ⟨c, rest, hrest⟩ := List.exists_cons_of_length_pos
      (l := (blanks e).drop n) (by rw [List.length_drop]; omega)
    have hc : c = ' ' := mem_blanks (List.mem_of_mem_drop (hrest ▸ List.mem_cons_self))
    rw [hrest, hc]
    exact matchesAt_of_not (by decide)
  have hfirst : matchesAt false loadRegex.pieces (lineBody e) =
      (matchesAt false (loadRegex.pieces.drop 1) (blanks e ++ macAddress e.mac)).map
        ((inetNtoa e.ip).length :: ·) := by
    refine matchesAt_many rfl (inetNtoa_ne_nil _) (fun c hc ↦ (mem_inetNtoa hc).1)
      (fun c hc ↦ ?_) fun n _ hlt ↦ hip n hlt
    rw [List.head?_append_of_ne_nil _ hblanks] at hc
    rw [mem_blanks (List.mem_of_mem_head? hc)]
    rfl
  have hsecond : matchesAt false (loadRegex.pieces.drop 1) (blanks e ++ macAddress e.mac) =
      (matchesAt false (loadRegex.pieces.drop 2) (macAddress e.mac)).map
        ((blanks e).length :: ·) := by
    refine matchesAt_many rfl hblanks (fun c hc ↦ ?_)
      (fun c hc ↦ (mem_macAddress (List.mem_of_mem_head? hc)).2.1) fun n _ hlt ↦ hblank n hlt
    rw [mem_blanks hc]
    rfl
  have hthird : longest (matchesAt false (loadRegex.pieces.drop 2) (macAddress e.mac)) =
      some [(macAddress e.mac).length] := by
    have hlast : longest (matchesAt false (loadRegex.pieces.drop 2) (macAddress e.mac ++ [])) =
        some [(macAddress e.mac).length] :=
      longest_matchesAt_last rfl hspelled (fun c hc ↦ (mem_macAddress hc).1) fun c hc ↦ by cases hc
    rwa [List.append_nil] at hlast
  have hmatch : longest (matchesAt false loadRegex.pieces (lineBody e)) =
      some [(inetNtoa e.ip).length, (blanks e).length, (macAddress e.mac).length] := by
    rw [hfirst, hsecond, longest_map_cons, longest_map_cons, hthird]
    rfl
  exact search_of_startAnchor rfl hmatch

/-- Reading a line adds the entry that it was written for. -/
theorem loadLine_saveLine (hmac : e.mac.length = 6) :
    loadLine inetAton self (saveLine e) =
      (mctblAdd inetAton self (some (inetNtoa e.ip)) (some e.mac)).1 := by
  have hne : e.mac ≠ [] := List.ne_nil_of_length_eq_add_one hmac
  obtain ⟨c, rest, hc⟩ := List.exists_cons_of_ne_nil (inetNtoa_ne_nil e.ip)
  have hplain : IsPlain c := (mem_inetNtoa (hc ▸ List.mem_cons_self)).2
  have hbody : lineBody e = c :: (rest ++ (blanks e ++ macAddress e.mac)) := by
    rw [lineBody, hc]
    rfl
  have hip : pieceText (lineBody e) 0
      [(inetNtoa e.ip).length, (blanks e).length, (macAddress e.mac).length] 0 = inetNtoa e.ip := by
    simp [pieceText, lineBody]
  have hmacText : pieceText (lineBody e) 0
      [(inetNtoa e.ip).length, (blanks e).length, (macAddress e.mac).length] 2 =
        macAddress e.mac := by
    rw [pieceText, lineBody, ← List.append_assoc]
    simp
  have hpacked : packedAddress (macAddress e.mac) = some e.mac := by
    rw [packedAddress_eq, ← hmac]
    exact readBytes_of_renders (renders_macAddress e.mac) hne
  have hlength := length_macAddress e.mac
  have hshort := length_inetNtoa_le e.ip
  have hsearch := loadRegex_search (e := e) hne
  rw [hmac] at hlength
  rw [loadLine, trimmed_saveLine hmac]
  generalize lineBody e = buffer at hbody hip hmacText hsearch
  subst hbody
  simp only
  rw [if_neg (not_or.mpr ⟨hplain.2.2.2.1, hplain.2.2.2.2⟩), hsearch]
  simp only [hip, hmacText, hpacked]
  rw [if_neg (by omega), if_neg (by omega)]

/-! ### The file -/

/-- The lines that `fgets` reads are those that were written. -/
theorem fgetsLines_saved {entries : List IpmacTable} (hmac : ∀ e ∈ entries, e.mac.length = 6) :
    fgetsLines 512 (entries.flatMap saveLine) = entries.map saveLine := by
  have hlines : textLines (entries.flatMap saveLine) = entries.map saveLine := by
    clear hmac
    induction entries with
    | nil => rfl
    | cons e entries ih =>
      have hnewline : '\n' ∉ lineBody e := fun h ↦ absurd (mem_lineBody h).1 (by decide)
      rw [List.flatMap_cons, saveLine_eq, List.append_assoc, List.singleton_append,
        textLines_line hnewline, ih, List.map_cons, saveLine_eq]
  rw [fgetsLines_eq, hlines]
  intro line hline
  rw [hlines] at hline
  obtain ⟨e, he, rfl⟩ := List.mem_map.mp hline
  have hlength := length_macAddress e.mac
  have hshort := length_inetNtoa_le e.ip
  rw [hmac e he] at hlength
  simp only [saveLine_eq, lineBody, blanks, List.length_append, List.length_replicate,
    List.length_cons, List.length_nil]
  omega

/-- Each line fills the next slot. -/
theorem foldl_loadLine {entries : List IpmacTable} (front free : List IpmacTable)
    (hmac : ∀ e ∈ entries, e.mac.length = 6)
    (hip : ∀ e ∈ entries, inetAton (inetNtoa e.ip) = some e.ip)
    (hself : self.ipmac = front ++ free) (hfront : ∀ e ∈ front, e.inuse = true)
    (hfree : ∀ e ∈ free, e.inuse = false) (hroom : entries.length ≤ free.length)
    (hnodup : (pairs front ++ entries.map fun e ↦ (e.ip, e.mac)).Nodup) :
    (entries.map saveLine).foldl (loadLine inetAton) self =
      { self with
        usecnt := self.usecnt + entries.length
        ipmac := front ++ entries.map (fun e ↦ freshEntry e.ip e.mac) ++
          free.drop entries.length } := by
  induction entries generalizing self front free with
  | nil =>
    obtain ⟨usecnt, haveChanged, ipmac⟩ := self
    subst hself
    simp
  | cons e entries ih =>
    cases free with
    | nil => exact absurd hroom (Nat.not_succ_le_zero _)
    | cons old free =>
      have hnot : (e.ip, e.mac) ∉ pairs self.ipmac := by
        rw [hself, pairs_append, pairs_eq_nil hfree, List.append_nil]
        intro hmem
        exact (List.nodup_append.mp hnodup).2.2 _ hmem _ List.mem_cons_self rfl
      have hadd := mctblAdd_of_free (hip e List.mem_cons_self) hself hfront
        (hfree old List.mem_cons_self) hnot
      have hfresh : pairs (front ++ [freshEntry e.ip e.mac]) = pairs front ++ [(e.ip, e.mac)] :=
        pairs_append _ _
      rw [List.map_cons, List.foldl_cons, loadLine_saveLine (hmac e List.mem_cons_self), hadd,
        ih (front ++ [freshEntry e.ip e.mac]) free
          (fun e he ↦ hmac e (List.mem_cons_of_mem _ he))
          (fun e he ↦ hip e (List.mem_cons_of_mem _ he)) (by simp [withEntry]) ?_
          (fun e he ↦ hfree e (List.mem_cons_of_mem _ he)) (Nat.le_of_succ_le_succ hroom) ?_]
      · simp only [withEntry, List.map_cons, List.length_cons, List.append_assoc,
          List.cons_append, List.nil_append, List.drop_succ_cons]
        congr 1
        omega
      · intro e' he'
        rcases List.mem_append.mp he' with he' | he'
        · exact hfront e' he'
        · rw [List.mem_singleton.mp he']
          rfl
      · rw [hfresh, List.append_assoc]
        exact hnodup

/-! ### Save, then load -/

/-- Loading the file of the entries of a well-formed table into an empty table with enough slots. -/
theorem mctblLoadTable_saved {entries : List IpmacTable} (other : MacTable)
    (hformed : WellFormed (entries.map fun e ↦ (e.ip, e.mac)))
    (hip : ∀ e ∈ entries, inetAton (inetNtoa e.ip) = some e.ip)
    (hroom : entries.length ≤ other.ipmac.length) :
    mctblLoadTable inetAton other (entries.flatMap saveLine) =
      { usecnt := entries.length
        haveChanged := false
        ipmac := entries.map (fun e ↦ freshEntry e.ip e.mac) ++
          (mctblClearAll other).ipmac.drop entries.length } := by
  have hmac (e : IpmacTable) (he : e ∈ entries) : e.mac.length = 6 :=
    hformed.length_mac _ (List.mem_map_of_mem he)
  have hfree : ∀ e ∈ (mctblClearAll other).ipmac, e.inuse = false := by
    intro e he
    obtain ⟨old, -, rfl⟩ := List.mem_map.mp he
    rfl
  have hslots : ({ mctblClearAll other with haveChanged := false } : MacTable).ipmac =
      [] ++ (mctblClearAll other).ipmac := rfl
  have hlines := foldl_loadLine [] _ hmac hip hslots (fun e he ↦ absurd he List.not_mem_nil)
    hfree (by simpa [mctblClearAll] using hroom) hformed.nodup
  rw [mctblLoadTable, fgetsLines_saved hmac]
  simpa [mctblClearAll] using hlines

/-- A table that `mctbl_save_table` writes and `mctbl_load_table` reads back, where asking `arp`
alters no pair. -/
theorem mctblSaveTable_then_load {t t' other : MacTable} {arp : ℕ → Option (List Char)}
    (hreached : Reached inetAton t) (hentry : pairs t.ipmac ≠ [])
    (hverify : mctblVerifyAll arp t.ipmac.length 0 t = .ok t')
    (hsame : pairs t'.ipmac = pairs t.ipmac)
    (hip : ∀ p ∈ pairs t.ipmac, inetAton (inetNtoa p.1) = some p.1)
    (hroom : t.ipmac.length ≤ other.ipmac.length) :
    ∃ file, mctblSaveTable arp t = .ok (t', some file) ∧
      pairs (mctblLoadTable inetAton other file).ipmac = pairs t.ipmac ∧
      (mctblLoadTable inetAton other file).usecnt = (pairs t.ipmac).length ∧
      ∀ e ∈ (mctblLoadTable inetAton other file).ipmac, e.verified = false := by
  set entries := t'.ipmac.filter (·.inuse) with hentries
  have hpairs : entries.map (fun e ↦ (e.ip, e.mac)) = pairs t.ipmac := hsame
  have hlength : entries.length = (pairs t.ipmac).length := by
    rw [← hpairs, List.length_map]
  have hcount : (pairs t.ipmac).length ≤ t.ipmac.length := by
    rw [pairs, List.length_map]
    exact List.length_filter_le _ _
  have hload := mctblLoadTable_saved other (hpairs ▸ hreached.wellFormed)
    (fun e he ↦ hip (e.ip, e.mac) (hpairs ▸ List.mem_map_of_mem he)) (by omega)
  refine ⟨entries.flatMap saveLine, ?_, ?_, ?_, ?_⟩
  · have hsome : entries.length ≠ 0 := by
      rw [hlength]
      exact mt List.eq_nil_of_length_eq_zero hentry
    rw [mctblSaveTable, hverify]
    exact if_neg hsome
  · have hfresh (l : List IpmacTable) :
        pairs (l.map fun e ↦ freshEntry e.ip e.mac) = l.map fun e ↦ (e.ip, e.mac) := by
      induction l with
      | nil => rfl
      | cons e l ih =>
        rw [List.map_cons, pairs_cons_inuse rfl, ih]
        rfl
    have hrest : pairs ((mctblClearAll other).ipmac.drop entries.length) = [] := by
      refine pairs_eq_nil fun e he ↦ ?_
      obtain ⟨old, -, rfl⟩ := List.mem_map.mp (List.mem_of_mem_drop he)
      rfl
    rw [hload, pairs_append, hfresh, hrest, List.append_nil, hpairs]
  · rw [hload, hlength]
  · rw [hload]
    intro e he
    rcases List.mem_append.mp he with he | he
    · obtain ⟨old, -, rfl⟩ := List.mem_map.mp he
      rfl
    · obtain ⟨old, -, rfl⟩ := List.mem_map.mp (List.mem_of_mem_drop he)
      rfl

/-- `inet_aton` on one address. -/
def inetAtonTen (ip : List Char) : Option (BitVec 32) :=
  if ip = ['1', '0', '.', '0', '.', '0', '.', '1'] then some 0x0a000001 else none

/-- A table with two MAC addresses of one IP address. -/
def twoPairs : MacTable :=
  let ip := ['1', '0', '.', '0', '.', '0', '.', '1']
  let first := (mctblAdd inetAtonTen (newMacTable 3 false) (some ip) (some [0, 1, 2, 3, 4, 0xff])).1
  (mctblAdd inetAtonTen first (some ip) (some [0, 0xa0, 2, 3, 4, 5])).1

/-- The table of two pairs, where `arp` cannot be run. -/
theorem twoPairs_then_load :
    ∃ file, mctblSaveTable (fun _ ↦ none) twoPairs = .ok (twoPairs, some file) ∧
      pairs (mctblLoadTable inetAtonTen (newMacTable 3 true) file).ipmac = pairs twoPairs.ipmac ∧
      (mctblLoadTable inetAtonTen (newMacTable 3 true) file).usecnt =
        (pairs twoPairs.ipmac).length ∧
      ∀ e ∈ (mctblLoadTable inetAtonTen (newMacTable 3 true) file).ipmac, e.verified = false := by
  have hpairs : pairs twoPairs.ipmac =
      [(0x0a000001, [0, 1, 2, 3, 4, 0xff]), (0x0a000001, [0, 0xa0, 2, 3, 4, 5])] := by
    decide
  refine mctblSaveTable_then_load ?_ ?_ rfl rfl ?_ (by decide)
  · refine .add _ _ (.add _ _ (.new 3 false) ?_) ?_
    · rintro m ⟨⟩
      rfl
    · rintro m ⟨⟩
      rfl
  · rw [hpairs]
    exact List.cons_ne_nil _ _
  · rw [hpairs]
    decide

end Katmai.Mactable
