import Katmai.Holktv.StbCmd
import Mathlib.Data.List.Basic
import Mathlib.Data.List.Induction
import Mathlib.Data.List.Nodup

/-!
# Commands and received bytes

The box should read no more of its buffer than it has received and no more of its table than is
registered, and run a handler only for a datagram with the right checksum (`Dispatches`). A datagram
that is accepted makes it read the entry before the table, and one that is refused is printed, with
what stands behind it if there is no zero in it. So the law holds for datagrams that are refused and
hold a zero, if the checksum is over bytes that were received (`dispatches_iff`). A datagram that is
accepted runs the handler of its command unless the entry before the table has it
(`handlers_of_accepted`).
-/

set_option autoImplicit false
set_option relaxedAutoImplicit false

namespace Katmai.Holktv

variable {Func : Type}

/-! ### The law -/

/-- The number of data bytes that a datagram announces. -/
def announced (data : List Int8) : ℕ :=
  (pduLen data).toNat

/-- The sum of the command, the echo, the length and the announced data. -/
def dataSum (data : List Int8) : ℕ :=
  let sum : ℤ := ((data.drop 3).take (3 + announced data)).foldl
    (fun sum byte ↦ sum + byte.toInt) 0
  (sum % 256).toNat

/-- The announced data was received and the checksum is the sum in hexadecimal. -/
structure ChecksumRight (data : List Int8) : Prop where
  whole : 6 + announced data ≤ data.length
  high : byteAt data 1 = hexDigit (dataSum data / 16)
  low : byteAt data 2 = hexDigit (dataSum data % 16)

/-- A call has registered the handler of a command. -/
def Registered (calls : List (Int8 × Func)) (cmd : Int8) (func : Func) : Prop :=
  cmd ∉ [charCode '\r', charCode '\n', charCode '\x08'] ∧
    ∃ first later, calls = first ++ (cmd, func) :: later ∧
      (hktvcmdRegist (registered first) cmd func).2 = 1

/-- The handler that a call runs. -/
def StbCall.handler? : StbCall Func → Option Func
  | .handler func => some func
  | _ => none

/-- The handlers that a datagram runs. -/
def Handling.handlers (handling : Handling Func) : List Func :=
  handling.calls.filterMap StbCall.handler?

/-- What is done for a datagram after some calls of `hktvcmd_regist`. -/
def handle (returns : Func → ℤ) (before : StbCommand Func) (calls : List (Int8 × Func))
    (buf : CmdBuffer) (data : CmdDatagram) : Handling Func :=
  hktvcmdMain returns before (registered calls) (buf.receive data).bytes

/-- Only received bytes and registered commands are read, and the handler of the command is run if
the checksum is right, and otherwise none. -/
structure Dispatches (returns : Func → ℤ) (before : StbCommand Func) (calls : List (Int8 × Func))
    (buf : CmdBuffer) (data : CmdDatagram) : Prop where
  received : ∀ k ∈ (handle returns before calls buf data).bufferReads, k < data.bytes.length
  inTable : ∀ i ∈ (handle returns before calls buf data).tableReads,
    0 ≤ i ∧ i < (registered calls).cmdlist.length
  runs : ChecksumRight data.bytes → ∀ func, Registered calls (byteAt data.bytes 3) func →
    (handle returns before calls buf data).handlers = [func]
  runsNone : ¬(ChecksumRight data.bytes ∧ ∃ func, Registered calls (byteAt data.bytes 3) func) →
    (handle returns before calls buf data).handlers = []

/-- A datagram with a zero. If it begins as a command, its data was received, and its checksum is
wrong if it begins so or if its command is registered. -/
structure Harmless (calls : List (Int8 × Func)) (data : List Int8) : Prop where
  zero : 0 ∈ data
  whole : byteAt data 0 = charCode '^' → 6 + announced data ≤ data.length
  wrong : byteAt data 0 = charCode '^' ∨ (∃ func, Registered calls (byteAt data 3) func) →
    ¬ChecksumRight data

/-! ### The bytes of the buffer -/

variable {buf : CmdBuffer} {data : CmdDatagram} {bytes rest : List Int8} {k : ℕ}

theorem byteAt_append (hk : k < bytes.length) (rest : List Int8) :
    byteAt (bytes ++ rest) k = byteAt bytes k := by
  rw [byteAt, byteAt, List.getElem?_append_left hk]

theorem pduLen_append (hbytes : 5 < bytes.length) (rest : List Int8) :
    pduLen (bytes ++ rest) = pduLen bytes := by
  rw [pduLen, pduLen, byteAt_append hbytes]

/-- The loop over the data bytes. -/
theorem foldl_range_byteAt (bytes : List Int8) (sum : ℤ) (start n : ℕ) :
    (List.range n).foldl (fun sum i ↦ sum + (byteAt bytes (start + i)).toInt) sum =
      ((bytes.drop start).take n).foldl (fun sum byte ↦ sum + byte.toInt) sum := by
  induction n with
  | zero => rfl
  | succ n ih =>
    rw [List.range_succ, List.foldl_append, ih, List.take_add_one, List.foldl_append,
      List.getElem?_drop]
    cases hbyte : bytes[start + n]? with
    | none => simp [byteAt, hbyte]
    | some byte => simp [byteAt, hbyte]

/-- The loop, begun at the command. -/
theorem masterSum_eq (bytes : List Int8) : masterSum bytes = dataSum bytes := by
  have hloop := foldl_range_byteAt bytes 0 3 (3 + announced bytes)
  rw [List.range_add, List.foldl_append, List.foldl_map] at hloop
  have hshift : (fun (sum : ℤ) (i : ℕ) ↦ sum + (byteAt bytes (3 + (3 + i))).toInt) =
      fun sum i ↦ sum + (byteAt bytes (6 + i)).toInt := by
    funext sum i
    rw [← Nat.add_assoc]
  have hfirst : (List.range 3).foldl (fun sum i ↦ sum + (byteAt bytes (3 + i)).toInt) (0 : ℤ) =
      (byteAt bytes 3).toInt + (byteAt bytes 4).toInt + (byteAt bytes 5).toInt := by
    change 0 + (byteAt bytes 3).toInt + (byteAt bytes 4).toInt + (byteAt bytes 5).toInt = _
    rw [Int.zero_add]
  rw [hshift, hfirst] at hloop
  rw [masterSum, dataSum, ← hloop]
  rfl

/-- The sum is over received bytes. -/
theorem dataSum_append (hwhole : 6 + announced bytes ≤ bytes.length) (rest : List Int8) :
    dataSum (bytes ++ rest) = dataSum bytes := by
  have hlen : announced (bytes ++ rest) = announced bytes := by
    rw [announced, pduLen_append (by omega), announced]
  have hdrop : (bytes ++ rest).drop 3 = bytes.drop 3 ++ rest :=
    List.drop_append_of_le_length (by omega)
  have htake : (bytes.drop 3 ++ rest).take (3 + announced bytes) =
      (bytes.drop 3).take (3 + announced bytes) :=
    List.take_append_of_le_length (by rw [List.length_drop]; omega)
  rw [dataSum, hlen, hdrop, htake, dataSum]

/-- Printing ends in the received bytes if there is a zero in them. -/
theorem printedBytes_lt_iff (bytes rest : List Int8) :
    (∀ k ∈ printedBytes (bytes ++ rest), k < bytes.length) ↔ 0 ∈ bytes := by
  have hzero : bytes.findIdx (· == 0) < bytes.length ↔ 0 ∈ bytes := by
    rw [List.findIdx_lt_length]
    simp
  rw [← hzero, printedBytes, List.findIdx_append]
  constructor
  · intro hall
    by_contra hnot
    rw [if_neg hnot] at hall
    have := hall bytes.length (List.mem_range.mpr (by omega))
    omega
  · intro hlt k hk
    rw [if_pos hlt, List.mem_range] at hk
    omega

/-! ### The check -/

/-- The bytes that the check reads, if the datagram begins as a command. -/
theorem exists_reads_masterCmdCheck (hlead : byteAt bytes 0 = charCode '^') :
    ∃ tail, (∀ k ∈ tail, k < 3) ∧ (masterCmdCheck bytes).2 =
      [5, 0, 3, 4, 5] ++ (List.range (announced bytes)).map (6 + ·) ++ tail := by
  rw [masterCmdCheck, if_neg (not_not_intro hlead)]
  dsimp only
  split_ifs
  · exact ⟨[1, 2], by decide, rfl⟩
  · exact ⟨[1], by decide, rfl⟩

/-- The check reads received bytes only if all announced data was received. -/
theorem masterCmdCheck_reads_lt_iff (hlead : byteAt bytes 0 = charCode '^')
    (hpos : 0 < bytes.length) (rest : List Int8) :
    (∀ k ∈ (masterCmdCheck (bytes ++ rest)).2, k < bytes.length) ↔
      6 + announced bytes ≤ bytes.length := by
  have hlead' : byteAt (bytes ++ rest) 0 = charCode '^' := by
    rwa [byteAt_append hpos]
  obtain ⟨tail, htail, hreads⟩ := exists_reads_masterCmdCheck hlead'
  have hlen (hfive : 5 < bytes.length) : announced (bytes ++ rest) = announced bytes := by
    rw [announced, pduLen_append hfive, announced]
  rw [hreads]
  constructor
  · intro hall
    have hfive : 5 < bytes.length := hall 5 (by simp)
    rw [hlen hfive] at hall
    cases hannounced : announced bytes with
    | zero => omega
    | succ n =>
      have hlast := hall (6 + n) (by
        rw [hannounced]
        simp)
      omega
  · intro hwhole k hk
    rw [hlen (by omega)] at hk
    simp only [List.mem_append, List.mem_cons, List.mem_map, List.mem_range, List.not_mem_nil,
      or_false] at hk
    rcases hk with (hfirst | ⟨i, hi, rfl⟩) | hlast
    · omega
    · omega
    · have := htail k hlast
      omega

theorem masterCmdCheck_iff (hlead : byteAt bytes 0 = charCode '^')
    (hwhole : 6 + announced bytes ≤ bytes.length) (rest : List Int8) :
    (masterCmdCheck (bytes ++ rest)).1 = true ↔ ChecksumRight bytes := by
  have hat (k : ℕ) (hk : k < 6) : byteAt (bytes ++ rest) k = byteAt bytes k :=
    byteAt_append (by omega) rest
  rw [masterCmdCheck, hat 0 (by omega), if_neg (not_not_intro hlead), masterSum_eq,
    dataSum_append hwhole, hat 1 (by omega), hat 2 (by omega)]
  dsimp only
  split_ifs with hhigh
  · rw [beq_iff_eq]
    exact ⟨fun hlow ↦ ⟨hwhole, hhigh.symm, hlow.symm⟩, fun hright ↦ hright.low.symm⟩
  · exact iff_of_false not_false fun hright ↦ hhigh hright.high.symm

/-! ### Datagrams -/

variable (returns : Func → ℤ) (before : StbCommand Func) (calls : List (Int8 × Func))

/-- What a datagram does that does not begin as a command. -/
theorem handle_of_lead_ne (buf : CmdBuffer) (hlead : byteAt data.bytes 0 ≠ charCode '^') :
    (handle returns before calls buf data).bufferReads =
        [0] ++ printedBytes (buf.receive data).bytes ∧
      (handle returns before calls buf data).tableReads = [] ∧
      (handle returns before calls buf data).handlers = [] := by
  have hlead' : byteAt (buf.receive data).bytes 0 ≠ charCode '^' := by
    rwa [CmdBuffer.receive, byteAt_append data.length_pos]
  rw [handle, hktvcmdMain, if_pos hlead']
  exact ⟨rfl, rfl, rfl⟩

/-- What a datagram does that begins as a command and fails the check. -/
theorem handle_of_check_false (hlead : byteAt data.bytes 0 = charCode '^')
    (hcheck : (masterCmdCheck (buf.receive data).bytes).1 = false) :
    (handle returns before calls buf data).bufferReads =
        0 :: (masterCmdCheck (buf.receive data).bytes).2 ++
          printedBytes (buf.receive data).bytes ∧
      (handle returns before calls buf data).tableReads = [] ∧
      (handle returns before calls buf data).handlers = [] := by
  have hlead' : ¬byteAt (buf.receive data).bytes 0 ≠ charCode '^' := by
    rw [CmdBuffer.receive, byteAt_append data.length_pos]
    exact not_not_intro hlead
  rw [handle, hktvcmdMain, if_neg hlead']
  dsimp only
  rw [hcheck]
  exact ⟨rfl, rfl, rfl⟩

variable {returns before calls}

/-- A datagram that is accepted reads the entry before the table. -/
theorem mem_tableReads_of_check_true (hlead : byteAt data.bytes 0 = charCode '^')
    (hcheck : (masterCmdCheck (buf.receive data).bytes).1 = true) :
    -1 ∈ (handle returns before calls buf data).tableReads := by
  have hlead' : ¬byteAt (buf.receive data).bytes 0 ≠ charCode '^' := by
    rw [CmdBuffer.receive, byteAt_append data.length_pos]
    exact not_not_intro hlead
  rw [handle, hktvcmdMain, if_neg hlead']
  simp only [hcheck, Bool.not_true, Bool.false_eq_true, if_false, runCommand, findCommand]
  split_ifs <;> exact List.mem_cons_self

/-- A datagram that is refused is printed, and runs no handler. -/
theorem dispatches_refused_iff {front : List ℕ}
    (hreads : (handle returns before calls buf data).bufferReads =
      front ++ printedBytes (buf.receive data).bytes)
    (htable : (handle returns before calls buf data).tableReads = [])
    (hhandlers : (handle returns before calls buf data).handlers = []) :
    Dispatches returns before calls buf data ↔
      (∀ k ∈ front, k < data.bytes.length) ∧ 0 ∈ data.bytes ∧
        ((∃ func, Registered calls (byteAt data.bytes 3) func) → ¬ChecksumRight data.bytes) := by
  have hprinted : (∀ k ∈ printedBytes (buf.receive data).bytes, k < data.bytes.length) ↔
      0 ∈ data.bytes := printedBytes_lt_iff data.bytes (buf.bytes.drop data.bytes.length)
  constructor
  · rintro ⟨hreceived, -, hruns, -⟩
    rw [hreads, List.forall_mem_append] at hreceived
    refine ⟨hreceived.1, hprinted.mp hreceived.2, ?_⟩
    rintro ⟨func, hregistered⟩ hright
    have := hruns hright func hregistered
    rw [hhandlers] at this
    cases this
  · rintro ⟨hfront, hzero, hwrong⟩
    refine ⟨?_, ?_, fun hright func hregistered ↦ ?_, fun _ ↦ hhandlers⟩
    · rw [hreads, List.forall_mem_append]
      exact ⟨hfront, hprinted.mpr hzero⟩
    · rw [htable]
      exact fun i hi ↦ absurd hi List.not_mem_nil
    · exact absurd hright (hwrong ⟨func, hregistered⟩)

/-- The box reads received bytes and registered commands only, and runs the handler of a datagram
with the right checksum and no other, if and only if the datagram is harmless. -/
theorem dispatches_iff (returns : Func → ℤ) (before : StbCommand Func)
    (calls : List (Int8 × Func)) (buf : CmdBuffer) (data : CmdDatagram) :
    Dispatches returns before calls buf data ↔ Harmless calls data.bytes := by
  have hpos := data.length_pos
  by_cases hlead : byteAt data.bytes 0 = charCode '^'
  · have hright (hwhole : 6 + announced data.bytes ≤ data.bytes.length) :
        (masterCmdCheck (buf.receive data).bytes).1 = true ↔ ChecksumRight data.bytes :=
      masterCmdCheck_iff hlead hwhole _
    cases hcheck : (masterCmdCheck (buf.receive data).bytes).1 with
    | true =>
      -- an accepted datagram reads in front of the table
      refine iff_of_false (fun hdispatches ↦ ?_) fun hharmless ↦ ?_
      · have := hdispatches.inTable _ (mem_tableReads_of_check_true hlead hcheck)
        omega
      · exact hharmless.wrong (.inl hlead) ((hright (hharmless.whole hlead)).mp hcheck)
    | false =>
      obtain ⟨hreads, htable, hhandlers⟩ :=
        handle_of_check_false returns before calls hlead hcheck
      rw [dispatches_refused_iff hreads htable hhandlers, List.forall_mem_cons, CmdBuffer.receive,
        masterCmdCheck_reads_lt_iff hlead hpos]
      constructor
      · rintro ⟨⟨-, hwhole⟩, hzero, -⟩
        refine ⟨hzero, fun _ ↦ hwhole, fun _ hright' ↦ ?_⟩
        rw [(hright hwhole).mpr hright'] at hcheck
        cases hcheck
      · rintro ⟨hzero, hwhole, hwrong⟩
        exact ⟨⟨hpos, hwhole hlead⟩, hzero, fun hregistered ↦ hwrong (.inr hregistered)⟩
  · obtain ⟨hreads, htable, hhandlers⟩ := handle_of_lead_ne returns before calls buf hlead
    rw [dispatches_refused_iff hreads htable hhandlers]
    constructor
    · rintro ⟨-, hzero, hwrong⟩
      exact ⟨hzero, fun h ↦ absurd h hlead, fun h ↦ hwrong (h.resolve_left hlead)⟩
    · rintro ⟨hzero, -, hwrong⟩
      refine ⟨fun k hk ↦ ?_, hzero, fun hregistered ↦ hwrong (.inr hregistered)⟩
      rw [List.mem_singleton.mp hk]
      exact hpos

/-! ### Registered commands -/

variable {s : StbCommands Func} {cmd : Int8} {func : Func} {entry : StbCommand Func}

/-- A call registers at most the command that it is given. -/
theorem mem_hktvcmdRegist :
    entry ∈ (hktvcmdRegist s cmd func).1.cmdlist ↔
      entry ∈ s.cmdlist ∨ (entry = ⟨cmd, func⟩ ∧
        cmd ∉ [charCode '\r', charCode '\n', charCode '\x08'] ∧
          (hktvcmdRegist s cmd func).2 = 1) := by
  rw [hktvcmdRegist]
  split_ifs with h1 h2 h3 h4 h5 <;> simp [*]

/-- The commands in the table differ. -/
theorem nodup_cmdlist (calls : List (Int8 × Func)) :
    ((registered calls).cmdlist.map StbCommand.cmd).Nodup := by
  induction calls using List.reverseRecOn with
  | nil => exact List.nodup_nil
  | append_singleton calls call ih =>
    rw [registered, List.foldl_append]
    change ((hktvcmdRegist (registered calls) call.1 call.2).1.cmdlist.map _).Nodup
    rw [hktvcmdRegist]
    split_ifs with h1 h2 h3 h4 h5
    · exact ih
    · exact ih
    · exact ih
    · exact ih
    · rw [List.map_append, List.nodup_append]
      refine ⟨ih, List.nodup_singleton _, fun a ha b hb ↦ ?_⟩
      obtain ⟨entry, hentry, rfl⟩ := List.mem_map.mp ha
      rw [List.map_singleton, List.mem_singleton] at hb
      rw [hb]
      exact fun heq ↦ h4 (List.any_eq_true.mpr ⟨entry, hentry, decide_eq_true heq⟩)
    · exact ih

/-- The table holds the handlers that were registered. -/
theorem registered_iff_mem (calls : List (Int8 × Func)) (cmd : Int8) (func : Func) :
    Registered calls cmd func ↔ ⟨cmd, func⟩ ∈ (registered calls).cmdlist := by
  induction calls using List.reverseRecOn with
  | nil => simp [Registered, registered, StbCommands.empty]
  | append_singleton calls call ih =>
    have hlast : registered (calls ++ [call]) =
        (hktvcmdRegist (registered calls) call.1 call.2).1 := by
      rw [registered, List.foldl_append]
      rfl
    rw [hlast, mem_hktvcmdRegist, ← ih]
    constructor
    · rintro ⟨hspecial, first, later, hcalls, hrc⟩
      rcases List.eq_nil_or_concat' later with rfl | ⟨later, last, rfl⟩
      · obtain ⟨rfl, hcall⟩ := List.append_inj' hcalls rfl
        obtain rfl := List.singleton_inj.mp hcall
        exact .inr ⟨rfl, hspecial, hrc⟩
      · rw [← List.cons_append, ← List.append_assoc] at hcalls
        obtain ⟨rfl, hcall⟩ := List.append_inj' hcalls rfl
        obtain rfl := List.singleton_inj.mp hcall
        exact .inl ⟨hspecial, first, later, rfl, hrc⟩
    · rintro (⟨hspecial, first, later, rfl, hrc⟩ | ⟨heq, hspecial, hrc⟩)
      · exact ⟨hspecial, first, later ++ [call], by rw [List.append_assoc, List.cons_append], hrc⟩
      · obtain ⟨rfl, rfl⟩ := StbCommand.mk.inj heq
        exact ⟨hspecial, calls, [], rfl, hrc⟩

/-- The loop finds the first entry with the command. -/
theorem findCommand_eq (cmd : Int8) (i : ℤ) (entries : List (StbCommand Func)) :
    (findCommand cmd i entries).2 =
      (entries.find? fun entry ↦ entry.cmd = cmd).map StbCommand.function := by
  induction entries generalizing i with
  | nil => rfl
  | cons entry entries ih =>
    rw [findCommand, List.find?_cons]
    split_ifs with hcmd
    · rw [decide_eq_true hcmd]
      rfl
    · rw [decide_eq_false hcmd]
      exact ih (i + 1)

theorem findCommand_of_registered (hregistered : Registered calls cmd func)
    (hbefore : before.cmd ≠ cmd) :
    (findCommand cmd (-1) (before :: (registered calls).cmdlist)).2 = some func := by
  have hmem := (registered_iff_mem calls cmd func).mp hregistered
  have hnodup := nodup_cmdlist calls
  rw [findCommand_eq, List.find?_cons_of_neg (by simp [hbefore])]
  obtain ⟨first, later, heq⟩ := List.append_of_mem hmem
  have hfind : (registered calls).cmdlist.find? (fun entry ↦ entry.cmd = cmd) =
      some ⟨cmd, func⟩ := by
    refine List.find?_eq_some_iff_append.mpr ⟨decide_eq_true rfl, first, later, heq, ?_⟩
    intro entry hentry
    rw [heq, List.map_append, List.map_cons, List.nodup_append] at hnodup
    have hne := hnodup.2.2 entry.cmd (List.mem_map_of_mem hentry) cmd List.mem_cons_self
    simp [hne]
  rw [hfind]
  rfl

/-- What runs for a datagram that is accepted is what the loop finds. -/
theorem handlers_runCommand (returns : Func → ℤ) (before : StbCommand Func)
    (s : StbCommands Func) (bytes : List Int8) :
    (runCommand returns before s bytes).handlers =
      (findCommand (byteAt bytes 3) (-1) (before :: s.cmdlist)).2.toList := by
  have hpre (func : Option Func) :
      (func.toList.map StbCall.pre).filterMap StbCall.handler? = [] := by
    cases func <;> rfl
  have hpost (func : Option Func) :
      (func.toList.map StbCall.post).filterMap StbCall.handler? = [] := by
    cases func <;> rfl
  have hhandler (func : Option Func) :
      (func.toList.map StbCall.handler).filterMap StbCall.handler? = func.toList := by
    cases func <;> rfl
  have hcmd (n : ℕ) : byteAt (bytes.set (6 + n) 0) 3 = byteAt bytes 3 := by
    rw [byteAt, byteAt, List.getElem?_set_ne (by omega)]
  simp only [Handling.handlers, runCommand, List.filterMap_append, hpre, hhandler, List.nil_append]
  split_ifs <;> simp only [hcmd, hpost, List.filterMap_nil, List.append_nil]

/-- A datagram that is accepted runs the handler of its command, unless the entry before the table
has the same command. -/
theorem handlers_of_accepted (hlead : byteAt data.bytes 0 = charCode '^')
    (hright : ChecksumRight data.bytes)
    (hregistered : Registered calls (byteAt data.bytes 3) func)
    (hbefore : before.cmd ≠ byteAt data.bytes 3) :
    (handle returns before calls buf data).handlers = [func] := by
  have hwhole := hright.whole
  have hcheck : (masterCmdCheck (buf.receive data).bytes).1 = true :=
    (masterCmdCheck_iff hlead hwhole _).mpr hright
  have hat {k : ℕ} (hk : k < 6) : byteAt (buf.receive data).bytes k = byteAt data.bytes k :=
    byteAt_append (by omega) _
  have hlead' : ¬byteAt (buf.receive data).bytes 0 ≠ charCode '^' := by
    rw [hat (by omega)]
    exact not_not_intro hlead
  rw [handle, hktvcmdMain, if_neg hlead']
  dsimp only
  rw [hcheck, Bool.not_true, if_neg Bool.false_ne_true]
  refine (handlers_runCommand returns before _ _).trans ?_
  rw [hat (by omega), findCommand_of_registered hregistered hbefore]
  rfl

/-- For a command with the right checksum the entry before the table is read. -/
theorem not_dispatches_accepted :
    ¬Dispatches (fun _ : Unit ↦ 0) ⟨0, ()⟩ [(65, ())]
      ⟨List.replicate cmdBufferSize 0, List.length_replicate⟩
      ⟨[94, 97, 49, 65, 48, 48], by decide, by decide⟩ := by
  intro hdispatches
  have hright : ChecksumRight [94, 97, 49, 65, 48, 48] := ⟨by decide, by decide, by decide⟩
  have hread := hdispatches.inTable _ (mem_tableReads_of_check_true (by decide)
    ((masterCmdCheck_iff (by decide) hright.whole _).mpr hright))
  omega

end Katmai.Holktv
