import Katmai.StreamioV3.DiskCache
import Katmai.StreamioV3.OpenAgreement
import Mathlib.Data.List.Induction

/-!
# Retransmitted and reordered `OPENFILE` requests

A client numbers its `OPENFILE` requests and sends each again until it is answered, so that the
server gets them repeated and out of order. `deliver` is what `stbtbl_setfile` makes of a list of
deliveries with the numbers `cnts`, all from the client `stbid`; `lookup` says what `stat` and
`open` find for the file of each number.

`setfile_tolerates_reordering` says that only a number above all earlier ones has an effect:
repeated requests get the answer of the first one, older ones get -1, and neither changes anything,
so that the entry ends up with the file of the largest number. The block count of an entry is only
set for a file that could be opened (`blockcnt_of_failed_open`).
-/

set_option autoImplicit false
set_option relaxedAutoImplicit false

namespace Katmai.StreamioV3

open Foundation

/-- The descriptor of a file after it was looked up. -/
def Lookup.opened : Lookup → Option OpenFile
  | .noStat _ => none
  | .noOpen _ => none
  | .found file _ => some ⟨file, 0⟩

/-! ### One request -/

section Setfile

variable {ch : StbChannel} {cnt : ℕ} {stbid : ℤ} (lookup : Lookup)

/-- What an entry holds after a request that is new. -/
structure Holds (stbid : ℤ) (lookup : Lookup) (cnt : ℕ) (ch : StbChannel) : Prop where
  stbid_eq : ch.stbid = stbid
  filecount_eq : ch.filecount = cnt
  fd_eq : ch.fd = lookup.opened
  filesize_eq : ch.filesize = lookup.result
  err_eq : ch.err = lookup.errno
  blockcnt_eq : ∀ file errno, lookup = .found file errno → ch.blockcnt = blockCount file.size

/-- A new request opens its file, and is answered with its size and error. -/
theorem setfile_of_new (hnew : ¬(ch.stbid = stbid ∧ cnt ≤ ch.filecount)) :
    (ch.setfile lookup cnt stbid).1 = ⟨lookup.result, some lookup.errno⟩ ∧
      Holds stbid lookup cnt (ch.setfile lookup cnt stbid).2 := by
  have hsame : ¬(ch.stbid = stbid ∧ ch.filecount = cnt) := fun h ↦ hnew ⟨h.1, h.2.ge⟩
  have hold : ¬(ch.stbid = stbid ∧ ch.filecount > cnt) := fun h ↦ hnew ⟨h.1, h.2.le⟩
  unfold StbChannel.setfile
  rw [if_neg hsame, if_neg hold]
  cases lookup with
  | noStat errno =>
    exact ⟨rfl, rfl, rfl, rfl, rfl, rfl, fun _ _ h ↦ Lookup.noConfusion h⟩
  | noOpen errno =>
    exact ⟨rfl, rfl, rfl, rfl, rfl, rfl, fun _ _ h ↦ Lookup.noConfusion h⟩
  | found file errno =>
    refine ⟨rfl, rfl, rfl, rfl, rfl, rfl, fun file' errno' h ↦ ?_⟩
    injection h with hfile
    subst hfile
    rfl

end Setfile

/-! ### Deliveries to one channel -/

/-- The channel after a list of deliveries. -/
def deliverChannel (lookup : ℕ → Lookup) (stbid : ℤ) (ch : StbChannel) (cnts : List ℕ) :
    StbChannel :=
  cnts.foldl (fun ch cnt ↦ (ch.setfile (lookup cnt) cnt stbid).2) ch

section DeliverChannel

variable {lookup : ℕ → Lookup} {stbid : ℤ} {ch : StbChannel}

theorem deliverChannel_append (first second : List ℕ) :
    deliverChannel lookup stbid ch (first ++ second) =
      deliverChannel lookup stbid (deliverChannel lookup stbid ch first) second :=
  List.foldl_append

/-- A request leaves the client of the entry as it is, or makes it its own. -/
theorem stbid_setfile (lookup : Lookup) (cnt : ℕ) :
    (ch.setfile lookup cnt stbid).2.stbid = stbid := by
  by_cases hnew : ch.stbid = stbid ∧ cnt ≤ ch.filecount
  · rw [setfile_snd_of_le lookup hnew.1 hnew.2]
    exact hnew.1
  · exact (setfile_of_new lookup hnew).2.stbid_eq

/-- The number of an entry of the client only grows. -/
theorem filecount_le_setfile (hid : ch.stbid = stbid) (lookup : Lookup) (cnt : ℕ) :
    ch.filecount ≤ (ch.setfile lookup cnt stbid).2.filecount := by
  by_cases hcnt : cnt ≤ ch.filecount
  · rw [setfile_snd_of_le lookup hid hcnt]
  · rw [(setfile_of_new lookup fun h ↦ hcnt h.2).2.filecount_eq]
    exact (Nat.not_le.mp hcnt).le

/-- Deliveries after the first one do not lower the number. -/
theorem filecount_le_deliverChannel (cnts : List ℕ) (hid : ch.stbid = stbid) :
    (deliverChannel lookup stbid ch cnts).stbid = stbid ∧
      ch.filecount ≤ (deliverChannel lookup stbid ch cnts).filecount := by
  induction cnts generalizing ch with
  | nil => exact ⟨hid, Nat.le_refl _⟩
  | cons cnt rest ih =>
    obtain ⟨hrest, hle⟩ := ih (stbid_setfile (lookup cnt) cnt)
    exact ⟨hrest, (filecount_le_setfile hid (lookup cnt) cnt).trans hle⟩

/-- After a list of deliveries the entry is as before, and all of them were old, or it holds the
file of the largest one. -/
theorem deliverChannel_cases (cnts : List ℕ) :
    (deliverChannel lookup stbid ch cnts = ch ∧
      ∀ c ∈ cnts, ch.stbid = stbid ∧ c ≤ ch.filecount) ∨
    ∃ m ∈ cnts, (∀ c ∈ cnts, c ≤ m) ∧ ¬(ch.stbid = stbid ∧ m ≤ ch.filecount) ∧
      Holds stbid (lookup m) m (deliverChannel lookup stbid ch cnts) := by
  induction cnts using List.reverseRecOn with
  | nil => exact .inl ⟨rfl, fun c hc ↦ absurd hc List.not_mem_nil⟩
  | append_singleton cnts cnt ih =>
    rw [deliverChannel_append]
    change ((deliverChannel lookup stbid ch cnts).setfile (lookup cnt) cnt stbid).2 = ch ∧ _ ∨
      ∃ m ∈ _, _ ∧ _ ∧ Holds stbid (lookup m) m
        ((deliverChannel lookup stbid ch cnts).setfile (lookup cnt) cnt stbid).2
    have hmem {c : ℕ} (hc : c ∈ cnts ++ [cnt]) : c ∈ cnts ∨ c = cnt := by simpa using hc
    have hlast : cnt ∈ cnts ++ [cnt] := List.mem_append_right cnts List.mem_cons_self
    rcases ih with ⟨hsame, hold⟩ | ⟨m, hm, hmax, hnew, hholds⟩
    · rw [hsame]
      by_cases hcnt : ch.stbid = stbid ∧ cnt ≤ ch.filecount
      · refine .inl ⟨setfile_snd_of_le (lookup cnt) hcnt.1 hcnt.2, fun c hc ↦ ?_⟩
        rcases hmem hc with hc | rfl
        · exact hold c hc
        · exact hcnt
      · refine .inr ⟨cnt, hlast, fun c hc ↦ ?_, hcnt, (setfile_of_new (lookup cnt) hcnt).2⟩
        rcases hmem hc with hc | rfl
        · by_contra hlt
          exact hcnt ⟨(hold c hc).1, (Nat.not_le.mp hlt).le.trans (hold c hc).2⟩
        · exact Nat.le_refl c
    · right
      by_cases hcnt : cnt ≤ m
      · rw [setfile_snd_of_le (lookup cnt) hholds.stbid_eq (hcnt.trans_eq hholds.filecount_eq.symm)]
        refine ⟨m, List.mem_append_left [cnt] hm, fun c hc ↦ ?_, hnew, hholds⟩
        rcases hmem hc with hc | rfl
        · exact hmax c hc
        · exact hcnt
      · have hlt : m < cnt := Nat.not_le.mp hcnt
        refine ⟨cnt, hlast, fun c hc ↦ ?_, fun h ↦ hnew ⟨h.1, hlt.le.trans h.2⟩,
          (setfile_of_new (lookup cnt) fun h ↦ hcnt (h.2.trans_eq hholds.filecount_eq)).2⟩
        rcases hmem hc with hc | rfl
        · exact (hmax c hc).trans hlt.le
        · exact Nat.le_refl c

/-- As long as the number of an entry stays, the entry stays. -/
theorem deliverChannel_eq_of_filecount_eq {cnts : List ℕ} (hid : ch.stbid = stbid)
    (hsame : (deliverChannel lookup stbid ch cnts).filecount = ch.filecount) :
    deliverChannel lookup stbid ch cnts = ch := by
  rcases deliverChannel_cases cnts with ⟨heq, -⟩ | ⟨m, -, -, hnew, hholds⟩
  · exact heq
  · have hm : m = ch.filecount := hholds.filecount_eq.symm.trans hsame
    exact absurd ⟨hid, hm.le⟩ hnew

end DeliverChannel

/-! ### Deliveries to the table -/

/-- The table after a list of deliveries for one entry and channel. -/
def deliver (lookup : ℕ → Lookup) (stbid : ℤ) (n channel : ℕ) (t : StbTable) (cnts : List ℕ) :
    StbTable :=
  cnts.foldl (fun t cnt ↦ (t.stbtblSetfile n channel (lookup cnt) cnt stbid).2) t

section Deliver

variable {lookup : ℕ → Lookup} {stbid : ℤ} {n channel : ℕ} {t : StbTable}

theorem stbtblSetfile_count (lookup : Lookup) (cnt : ℕ) :
    (t.stbtblSetfile n channel lookup cnt stbid).2.count = t.count := by
  unfold StbTable.stbtblSetfile
  dsimp only
  split_ifs <;> rfl

theorem stbtblSetfile_fst (hn : n < t.count) (lookup : Lookup) (cnt : ℕ) :
    (t.stbtblSetfile n channel lookup cnt stbid).1 =
      (((t.stbent n).channel channel).setfile lookup cnt stbid).1 := by
  unfold StbTable.stbtblSetfile
  rw [if_pos hn]
  dsimp only
  split_ifs <;> rfl

/-- A request for an entry does to the channel what `StbChannel.setfile` does. -/
theorem channel_stbtblSetfile (hn : n < t.count) (lookup : Lookup) (cnt : ℕ) :
    ((t.stbtblSetfile n channel lookup cnt stbid).2.stbent n).channel channel =
      (((t.stbent n).channel channel).setfile lookup cnt stbid).2 := by
  unfold StbTable.stbtblSetfile
  rw [if_pos hn]
  dsimp only
  split_ifs with hold
  · exact (setfile_snd_of_le lookup hold.1 hold.2).symm
  · refine (channel_setChannel t n channel _ n channel).trans ?_
    rw [if_pos ⟨rfl, rfl⟩]

/-- A request that is not new leaves the table alone. -/
theorem stbtblSetfile_snd_of_le (hid : ((t.stbent n).channel channel).stbid = stbid) {cnt : ℕ}
    (hcnt : cnt ≤ ((t.stbent n).channel channel).filecount) (lookup : Lookup) :
    (t.stbtblSetfile n channel lookup cnt stbid).2 = t := by
  unfold StbTable.stbtblSetfile
  split_ifs with hn
  · dsimp only
    rw [if_pos ⟨hid, hcnt⟩]
  · rfl

/-- The channel after deliveries to the table. -/
theorem channel_deliver (hn : n < t.count) (cnts : List ℕ) :
    ((deliver lookup stbid n channel t cnts).stbent n).channel channel =
        deliverChannel lookup stbid ((t.stbent n).channel channel) cnts ∧
      (deliver lookup stbid n channel t cnts).count = t.count := by
  induction cnts generalizing t with
  | nil => exact ⟨rfl, rfl⟩
  | cons cnt rest ih =>
    have hcount : (t.stbtblSetfile n channel (lookup cnt) cnt stbid).2.count = t.count :=
      stbtblSetfile_count (lookup cnt) cnt
    obtain ⟨hrest, hcountRest⟩ := ih (hn.trans_eq hcount.symm)
    refine ⟨hrest.trans ?_, hcountRest.trans hcount⟩
    rw [channel_stbtblSetfile hn]
    rfl

end Deliver

section Reordering

variable {lookup : ℕ → Lookup} {stbid : ℤ} {n channel : ℕ} {t : StbTable}

/-- After the first delivery the entry belongs to the client. -/
theorem stbid_deliver_cons (hn : n < t.count) (first : ℕ) (rest : List ℕ) :
    (((deliver lookup stbid n channel t (first :: rest)).stbent n).channel channel).stbid =
      stbid := by
  rw [(channel_deliver hn (first :: rest)).1]
  exact (filecount_le_deliverChannel rest (stbid_setfile (lookup first) first)).1

/-- A request with the number of an entry of the client is answered from the entry. -/
theorem stbtblSetfile_of_eq (hn : n < t.count)
    (hid : ((t.stbent n).channel channel).stbid = stbid) (again : Lookup) :
    t.stbtblSetfile n channel again ((t.stbent n).channel channel).filecount stbid =
      (⟨((t.stbent n).channel channel).filesize, some ((t.stbent n).channel channel).err⟩, t) := by
  refine Prod.ext ?_ (stbtblSetfile_snd_of_le hid (Nat.le_refl _) again)
  rw [stbtblSetfile_fst hn, setfile_of_eq again hid rfl]

/-- A request with a smaller number is turned down. -/
theorem stbtblSetfile_of_lt (hn : n < t.count)
    (hid : ((t.stbent n).channel channel).stbid = stbid) {cnt : ℕ}
    (hcnt : cnt < ((t.stbent n).channel channel).filecount) (again : Lookup) :
    t.stbtblSetfile n channel again cnt stbid = (⟨-1, none⟩, t) := by
  refine Prod.ext ?_ (stbtblSetfile_snd_of_le hid hcnt.le again)
  rw [stbtblSetfile_fst hn, setfile_of_lt again hid hcnt]

/-- The answer to the request that set the number of an entry is what the entry holds as long as the
number stays. -/
theorem answer_of_setter (hn : n < t.count) {before later : List ℕ} {cnt : ℕ}
    (hnew : ¬((((deliver lookup stbid n channel t before).stbent n).channel channel).stbid = stbid ∧
      cnt ≤ (((deliver lookup stbid n channel t before).stbent n).channel channel).filecount))
    (hcnt : (((deliver lookup stbid n channel t (before ++ cnt :: later)).stbent n).channel
      channel).filecount = cnt) :
    ((deliver lookup stbid n channel t before).stbtblSetfile n channel (lookup cnt) cnt stbid).1 =
      ⟨(((deliver lookup stbid n channel t (before ++ cnt :: later)).stbent n).channel
          channel).filesize,
        some (((deliver lookup stbid n channel t (before ++ cnt :: later)).stbent n).channel
          channel).err⟩ := by
  obtain ⟨hbefore, hcount⟩ := @channel_deliver lookup stbid n channel t hn before
  obtain ⟨hafter, -⟩ := @channel_deliver lookup stbid n channel t hn (before ++ cnt :: later)
  rw [stbtblSetfile_fst (hn.trans_eq hcount.symm)]
  rw [hbefore] at hnew ⊢
  rw [hafter] at hcnt ⊢
  rw [deliverChannel_append] at hcnt ⊢
  obtain ⟨hanswer, hholds⟩ := setfile_of_new (lookup cnt) hnew
  have hkept := deliverChannel_eq_of_filecount_eq hholds.stbid_eq
    (hcnt.trans hholds.filecount_eq.symm)
  change _ = SetfileResult.mk (deliverChannel lookup stbid _ later).filesize
    (some (deliverChannel lookup stbid _ later).err)
  rw [hkept, hanswer, hholds.filesize_eq, hholds.err_eq]

end Reordering

/-- Requests of one client that arrive repeated and out of order. After the first one the number of
the entry only grows; a request with this number is answered as the one that set it and changes
nothing; a request with a smaller number is answered with -1 and changes nothing; and after any list
of deliveries the file, the size and the error of the entry are those of the largest number, unless
that one was old when the first delivery arrived, and so is the block count if the file could be
opened. -/
theorem setfile_tolerates_reordering (lookup : ℕ → Lookup) (stbid : ℤ) (n channel : ℕ)
    (t : StbTable) (hn : n < t.count) :
    let after := deliver lookup stbid n channel t
    let entry := fun cnts ↦ ((after cnts).stbent n).channel channel
    (∀ first rest more, (entry (first :: rest)).filecount ≤
      (entry (first :: rest ++ more)).filecount) ∧
    (∀ first rest again, (after (first :: rest)).stbtblSetfile n channel again
        (entry (first :: rest)).filecount stbid =
      (⟨(entry (first :: rest)).filesize, some (entry (first :: rest)).err⟩,
        after (first :: rest))) ∧
    (∀ before cnt later again, ¬((entry before).stbid = stbid ∧ cnt ≤ (entry before).filecount) →
      (entry (before ++ cnt :: later)).filecount = cnt →
      (after (before ++ cnt :: later)).stbtblSetfile n channel again cnt stbid =
        (((after before).stbtblSetfile n channel (lookup cnt) cnt stbid).1,
          after (before ++ cnt :: later))) ∧
    (∀ first rest again cnt, cnt < (entry (first :: rest)).filecount →
      (after (first :: rest)).stbtblSetfile n channel again cnt stbid =
        (⟨-1, none⟩, after (first :: rest))) ∧
    ∀ cnts m, m ∈ cnts → (∀ c ∈ cnts, c ≤ m) →
      if ((t.stbent n).channel channel).stbid = stbid ∧
          m ≤ ((t.stbent n).channel channel).filecount then
        entry cnts = (t.stbent n).channel channel
      else Holds stbid (lookup m) m (entry cnts) := by
  intro after entry
  have hcount (cnts : List ℕ) : n < (after cnts).count :=
    hn.trans_eq (channel_deliver hn cnts).2.symm
  have hid (first : ℕ) (rest : List ℕ) : (entry (first :: rest)).stbid = stbid :=
    stbid_deliver_cons hn first rest
  refine ⟨?_, ?_, ?_, ?_, ?_⟩
  · intro first rest more
    have hfirst : entry (first :: rest) = _ := (channel_deliver hn (first :: rest)).1
    have hmore : entry (first :: rest ++ more) = _ := (channel_deliver hn (first :: rest ++ more)).1
    rw [hmore, deliverChannel_append, ← hfirst]
    exact (filecount_le_deliverChannel more (hid first rest)).2
  · intro first rest again
    exact stbtblSetfile_of_eq (hcount _) (hid first rest) again
  · intro before cnt later again hnew hcnt
    have hlater : (entry (before ++ cnt :: later)).stbid = stbid := by
      cases before with
      | nil => exact hid cnt later
      | cons first rest => exact hid first (rest ++ cnt :: later)
    rw [answer_of_setter hn hnew hcnt]
    have hsame := stbtblSetfile_of_eq (hcount (before ++ cnt :: later)) hlater again
    change _ = (_, after (before ++ cnt :: later)) at hsame
    rwa [hcnt] at hsame
  · intro first rest again cnt hcnt
    exact stbtblSetfile_of_lt (hcount _) (hid first rest) hcnt again
  · intro cnts m hm hmax
    have hcnts : entry cnts = _ := (channel_deliver hn cnts).1
    rw [hcnts]
    rcases @deliverChannel_cases lookup stbid ((t.stbent n).channel channel) cnts with
      ⟨hsame, hold⟩ | ⟨m', hm', hmax', hnew, hholds⟩
    · rw [if_pos (hold m hm)]
      exact hsame
    · obtain rfl : m' = m := Nat.le_antisymm (hmax m' hm') (hmax' m hm)
      rw [if_neg hnew]
      exact hholds

/-- A file of nine bytes. -/
def nineBytes : RegularFile where
  size := 9
  size_lt := by decide
  byte := fun _ ↦ 0

/-- The first request is for a file of nine bytes, the others are for files that do not exist. -/
def firstFileOnly (cnt : ℕ) : Lookup :=
  if cnt = 1 then .found nineBytes 0 else .noStat 2

theorem setfile_tolerates_reordering_twoFiles :
    Holds 42 (firstFileOnly 2) 2
      (((deliver firstFileOnly 42 0 0 (newStbtable 1) [1, 2, 1, 2]).stbent 0).channel 0) := by
  have hlargest := (setfile_tolerates_reordering firstFileOnly 42 0 0 (newStbtable 1)
    Nat.one_pos).2.2.2.2 [1, 2, 1, 2] 2 (by decide) (by decide)
  rwa [if_neg (by decide)] at hlargest

/-- The block count after the request of a file that does not exist depends on what was delivered
before it. -/
theorem blockcnt_of_failed_open :
    (((deliver firstFileOnly 42 0 0 (newStbtable 1) [1, 2]).stbent 0).channel 0).blockcnt = 1 ∧
      (((deliver firstFileOnly 42 0 0 (newStbtable 1) [2, 1]).stbent 0).channel 0).blockcnt =
        0 := by
  decide

end Katmai.StreamioV3
