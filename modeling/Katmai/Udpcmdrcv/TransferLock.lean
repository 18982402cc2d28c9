import Mathlib.Data.Int.Notation
import Mathlib.Tactic.Common
import Katmai.Foundation.EventRun

/-!
# The transfer lock of `udpcmdrcv`

`udpcmdrcv/sendfile.c` moves one file at a time between two stations, and `inftp` is the lock.
`ftp_send` takes it, and gives it back when the file cannot be opened; else the thread that it
starts, `ftpsend_main`, gives it back when the file is sent. `cmd_handler` takes it for a `SENDREQ`,
prepares the reception and answers with the port.

`Sendfile` is the state with the places of the threads, and `sendfileStep` one step of one of them.
The results of system calls are in the events. At most one transfer is under way at any time
(`underway_le_one`). The receiving side never gives the lock back, neither when the preparation
fails nor when the file has come in, and `ftp_send` does not ask whether the thread was created:
`lockLaw_iff` says that the lock is free whenever no transfer is under way exactly along the runs in
which none of the three happens.
-/

set_option autoImplicit false
set_option relaxedAutoImplicit false

namespace Katmai.Udpcmdrcv

open Foundation

/-- `struct sendfile_pdu_t`. -/
structure SendfilePdu where
  cmd : ℤ
  id : ℤ
  port : ℤ
  deriving DecidableEq, Repr

/-- `SendfilePDUcmd_SENDREQ`. -/
def sendreqCmd : ℤ :=
  2

/-- `SendfilePDUcmd_SENDACK`. -/
def sendackCmd : ℤ :=
  3

/-- Where the call of `ftp_send` is that has taken the lock: before `open`, before
`pthread_create`, or before `leaving_ftpmode`. -/
inductive SendCall
  | none
  | opening (n : ℤ)
  | creating
  | failing
  deriving DecidableEq, Repr

/-- Where `ftpsend_main` is: created, waiting for the port, before `close`, or before
`leaving_ftpmode`. -/
inductive SenderThread
  | none
  | starting
  | waiting
  | closing
  | leaving
  deriving DecidableEq, Repr

/-- Where `cmd_handler` is: in no call, or in `rcvfile_prepare` for a request of the station
`id`. -/
inductive Handler
  | idle
  | preparing (id : ℤ)
  deriving DecidableEq, Repr

/-- The fields of `struct udpcmdrcv_sendfile_pd_t`, the places of the threads, and whether a file is
being received. `outbox` and `returned` are the PDUs that were sent and what the calls of `ftp_send`
returned. -/
structure Sendfile where
  inftp : Bool
  transferCompleted : Bool
  rmid : ℤ
  id : ℤ
  tcpport : ℤ
  udpslot : ℤ
  filesize : ℤ
  fd : ℤ
  sendCall : SendCall
  sender : SenderThread
  handler : Handler
  receiving : Bool
  outbox : List SendfilePdu
  returned : List ℤ
  deriving DecidableEq, Repr

/-- `new_udpcmdrcv_sendfile`, of the station `id`, in memory that held `memory`. -/
def newSendfile (id : ℤ) (memory : Sendfile) : Sendfile :=
  { memory with
    inftp := false
    transferCompleted := true
    rmid := -1
    id := id
    sendCall := .none
    sender := .none
    handler := .idle
    receiving := false
    outbox := []
    returned := [] }

/-- Memory of zeros. -/
def zeroedSendfile : Sendfile where
  inftp := false
  transferCompleted := false
  rmid := 0
  id := 0
  tcpport := 0
  udpslot := 0
  filesize := 0
  fd := 0
  sendCall := .none
  sender := .none
  handler := .idle
  receiving := false
  outbox := []
  returned := []

namespace Sendfile

/-- `entering_ftpmode`. -/
def enteringFtpmode (s : Sendfile) : Bool × Sendfile :=
  if s.inftp = false then (true, { s with inftp := true }) else (false, s)

/-- `leaving_ftpmode`. -/
def leavingFtpmode (s : Sendfile) : Sendfile :=
  { s with inftp := false }

/-- `cmd_handler`, up to its call of `rcvfile_prepare`. -/
def cmdHandler (s : Sendfile) (pdu : SendfilePdu) : Sendfile :=
  if pdu.cmd = sendreqCmd then
    let entered := s.enteringFtpmode
    if entered.1 then { entered.2 with handler := .preparing pdu.id } else entered.2
  else if pdu.cmd = sendackCmd then { s with tcpport := pdu.port }
  else s

/-- `cmd_handler` after `rcvfile_prepare` has returned `port`. -/
def finishRequest (s : Sendfile) (id port : ℤ) : Sendfile :=
  if port ≥ 0 then
    { s with
      rmid := id
      handler := .idle
      receiving := true
      outbox := s.outbox ++ [⟨sendackCmd, s.id, port⟩] }
  else { s with handler := .idle }

/-- `ftp_send` up to `open`. -/
def beginSend (s : Sendfile) (n : ℤ) : Sendfile :=
  let entered := s.enteringFtpmode
  if entered.1 then { entered.2 with sendCall := .opening n }
  else { entered.2 with returned := s.returned ++ [0] }

/-- `ftp_send` from `open` up to `pthread_create`, or to `leaving_ftpmode`, when `open` has returned
`fd` and `fstat` has given `filesize`, if anything. -/
def openSend (s : Sendfile) (n fd : ℤ) (filesize : Option ℤ) : Sendfile :=
  if fd < 0 then { s with sendCall := .failing }
  else
    match filesize with
    | none => { s with sendCall := .failing }
    | some filesize =>
      { s with
        udpslot := n
        filesize := filesize
        fd := fd
        transferCompleted := false
        sendCall := .creating }

end Sendfile

/-! ### Steps -/

/-- What can happen next: a PDU comes in, `rcvfile_prepare` returns, a reception ends, or one of the
threads that send moves. -/
inductive SendfileEvent
  | shortPacket
  | pdu (pdu : SendfilePdu)
  | prepared (port : ℤ)
  | receptionEnds
  | ftpSend (n : ℤ)
  | opened (fd : ℤ) (filesize : Option ℤ)
  | created (ok : Bool)
  | sendFails
  | senderStarts (haveTcp : Bool) (buffer : ℤ)
  | senderConnects
  | senderCloses
  | senderLeaves

/-- One step. One thread calls `cmd_handler` for the PDUs, one after another. The port of a
`SENDREQ` is what its buffer held. -/
def sendfileStep (s : Sendfile) : SendfileEvent → Option Sendfile
  | .shortPacket => if s.handler = .idle then some s else none
  | .pdu pdu => if s.handler = .idle then some (s.cmdHandler pdu) else none
  | .prepared port =>
    match s.handler with
    | .preparing id => some (s.finishRequest id port)
    | .idle => none
  | .receptionEnds => if s.receiving then some { s with receiving := false } else none
  | .ftpSend n => some (s.beginSend n)
  | .opened fd filesize =>
    match s.sendCall with
    | .opening n => some (s.openSend n fd filesize)
    | _ => none
  | .created ok =>
    if s.sendCall = .creating then
      some { s with
        sendCall := .none
        sender := if ok then .starting else s.sender
        returned := s.returned ++ [1] }
    else none
  | .sendFails =>
    if s.sendCall = .failing then
      some { s.leavingFtpmode with sendCall := .none, returned := s.returned ++ [0] }
    else none
  | .senderStarts haveTcp buffer =>
    if s.sender = .starting then
      if haveTcp then
        some { s with
          tcpport := -1
          outbox := s.outbox ++ [⟨sendreqCmd, s.id, buffer⟩]
          sender := .waiting }
      else some { s with sender := .closing }
    else none
  | .senderConnects =>
    if s.sender = .waiting ∧ 0 ≤ s.tcpport then some { s with sender := .closing } else none
  | .senderCloses =>
    if s.sender = .closing then some { s with transferCompleted := true, sender := .leaving }
    else none
  | .senderLeaves =>
    if s.sender = .leaving then some { s.leavingFtpmode with sender := .none } else none

/-! ### What is under way -/

/-- A call that has taken the lock counts. -/
def SendCall.busy : SendCall → ℕ
  | none => 0
  | opening _ => 1
  | creating => 1
  | failing => 1

/-- A thread that sends counts. -/
def SenderThread.busy : SenderThread → ℕ
  | none => 0
  | starting => 1
  | waiting => 1
  | closing => 1
  | leaving => 1

/-- A request that is being prepared counts. -/
def Handler.busy : Handler → ℕ
  | idle => 0
  | preparing _ => 1

/-- How many transfers are under way: a call of `ftp_send` that has taken the lock, a sending
thread, a request that is being prepared, and a reception. -/
def Sendfile.underway (s : Sendfile) : ℕ :=
  s.sendCall.busy + s.sender.busy + s.handler.busy + s.receiving.toNat

/-- What the lock is for: at most one transfer is under way, and when none is, the lock is free, so
that the next one is not refused. -/
structure LockLaw (s : Sendfile) : Prop where
  exclusive : s.underway ≤ 1
  released : s.underway = 0 → s.inftp = false ∧ s.enteringFtpmode.1 = true

/-- What a step does to the transfers and the lock: it goes on with what is under way, or begins a
transfer and takes the lock, or ends one and gives the lock back, or ends one and keeps the
lock. -/
inductive LockEffect (s t : Sendfile) : Prop
  | goesOn (hunderway : t.underway = s.underway) (hlock : t.inftp = s.inftp)
  | takes (hfree : s.inftp = false) (hunderway : t.underway = s.underway + 1)
      (hlock : t.inftp = true)
  | givesBack (hunderway : t.underway + 1 = s.underway) (hlock : t.inftp = false)

/-- The event ends no transfer without giving the lock back: no preparation fails, no reception
ends, and every thread is created. -/
def KeepsLaw : SendfileEvent → Prop
  | .prepared port => 0 ≤ port
  | .receptionEnds => False
  | .created ok => ok = true
  | _ => True

/-- A transfer that is under way is the only one, and has the lock. -/
structure Locked (s : Sendfile) : Prop where
  exclusive : s.underway ≤ 1
  locked : s.inftp = false → s.underway = 0

open Sendfile

variable {s t : Sendfile} {event : SendfileEvent}

theorem lockEffect_cmdHandler (hidle : s.handler = .idle) (pdu : SendfilePdu) :
    LockEffect s (s.cmdHandler pdu) := by
  unfold cmdHandler enteringFtpmode
  by_cases hfree : s.inftp = false
  · simp only [if_pos hfree, if_true]
    split_ifs
    · refine .takes hfree ?_ rfl
      simp only [underway, hidle, Handler.busy]
      omega
    · exact .goesOn rfl rfl
    · exact .goesOn rfl rfl
  · simp only [if_neg hfree, Bool.false_eq_true, if_false]
    split_ifs
    · exact .goesOn rfl rfl
    · exact .goesOn rfl rfl
    · exact .goesOn rfl rfl

theorem lockEffect_beginSend (hs : Locked s) (n : ℤ) : LockEffect s (s.beginSend n) := by
  unfold beginSend enteringFtpmode
  by_cases hfree : s.inftp = false
  · simp only [if_pos hfree, if_true]
    refine .takes hfree ?_ rfl
    have hzero := hs.locked hfree
    simp only [underway, SendCall.busy] at hzero ⊢
    omega
  · simp only [if_neg hfree, Bool.false_eq_true, if_false]
    exact .goesOn rfl rfl

theorem lockEffect_openSend {n : ℤ} (hcall : s.sendCall = .opening n) (fd : ℤ)
    (filesize : Option ℤ) : LockEffect s (s.openSend n fd filesize) := by
  unfold openSend
  split_ifs
  · refine .goesOn ?_ rfl
    simp only [underway, hcall, SendCall.busy]
  · cases filesize with
    | none =>
      refine .goesOn ?_ rfl
      simp only [underway, hcall, SendCall.busy]
    | some filesize =>
      refine .goesOn ?_ rfl
      simp only [underway, hcall, SendCall.busy]

/-- A request that is prepared becomes a reception. -/
theorem lockEffect_finishRequest (hs : Locked s) {id port : ℤ} (hplace : s.handler = .preparing id)
    (hport : 0 ≤ port) : LockEffect s (s.finishRequest id port) := by
  have hexclusive := hs.exclusive
  unfold finishRequest
  rw [if_pos hport]
  refine .goesOn ?_ rfl
  simp only [underway, hplace, Handler.busy, Bool.toNat_true] at hexclusive ⊢
  omega

theorem preparing_of_prepared {port : ℤ} (hstep : sendfileStep s (.prepared port) = some t) :
    ∃ id, s.handler = .preparing id ∧ s.finishRequest id port = t := by
  simp only [sendfileStep] at hstep
  cases hplace : s.handler with
  | idle =>
    rw [hplace] at hstep
    exact absurd hstep.symm (Option.some_ne_none t)
  | preparing id =>
    rw [hplace] at hstep
    exact ⟨id, rfl, Option.some_inj.mp hstep⟩

theorem opening_of_opened {fd : ℤ} {filesize : Option ℤ}
    (hstep : sendfileStep s (.opened fd filesize) = some t) :
    ∃ n, s.sendCall = .opening n ∧ s.openSend n fd filesize = t := by
  simp only [sendfileStep] at hstep
  cases hcall : s.sendCall with
  | opening n =>
    rw [hcall] at hstep
    exact ⟨n, rfl, Option.some_inj.mp hstep⟩
  | none | creating | failing =>
    rw [hcall] at hstep
    exact absurd hstep.symm (Option.some_ne_none t)

/-- What a step does that ends no transfer without giving the lock back. -/
theorem lockEffect_sendfileStep (hs : Locked s) (hgood : KeepsLaw event)
    (hstep : sendfileStep s event = some t) : LockEffect s t := by
  have hexclusive := hs.exclusive
  cases event with
  | shortPacket =>
    simp only [sendfileStep] at hstep
    split_ifs at hstep
    cases hstep
    exact .goesOn rfl rfl
  | pdu pdu =>
    simp only [sendfileStep] at hstep
    split_ifs at hstep with hidle
    cases hstep
    exact lockEffect_cmdHandler hidle pdu
  | prepared port =>
    obtain ⟨id, hplace, rfl⟩ := preparing_of_prepared hstep
    exact lockEffect_finishRequest hs hplace hgood
  | receptionEnds => exact absurd hgood not_false
  | ftpSend n =>
    cases hstep
    exact lockEffect_beginSend hs n
  | opened fd filesize =>
    obtain ⟨n, hcall, rfl⟩ := opening_of_opened hstep
    exact lockEffect_openSend hcall fd filesize
  | created ok =>
    have hok : ok = true := hgood
    simp only [sendfileStep] at hstep
    rw [if_pos hok] at hstep
    split_ifs at hstep with hcall
    cases hstep
    refine .goesOn ?_ rfl
    simp only [underway, hcall, SendCall.busy, SenderThread.busy] at hexclusive ⊢
    omega
  | sendFails =>
    simp only [sendfileStep] at hstep
    split_ifs at hstep with hcall
    cases hstep
    refine .givesBack ?_ rfl
    simp only [underway, leavingFtpmode, hcall, SendCall.busy]
    omega
  | senderStarts haveTcp buffer =>
    simp only [sendfileStep] at hstep
    split_ifs at hstep with hplace
    · cases hstep
      refine .goesOn ?_ rfl
      simp only [underway, hplace, SenderThread.busy]
    · cases hstep
      refine .goesOn ?_ rfl
      simp only [underway, hplace, SenderThread.busy]
  | senderConnects =>
    simp only [sendfileStep] at hstep
    split_ifs at hstep with hplace
    cases hstep
    refine .goesOn ?_ rfl
    simp only [underway, hplace.1, SenderThread.busy]
  | senderCloses =>
    simp only [sendfileStep] at hstep
    split_ifs at hstep with hplace
    cases hstep
    refine .goesOn ?_ rfl
    simp only [underway, hplace, SenderThread.busy]
  | senderLeaves =>
    simp only [sendfileStep] at hstep
    split_ifs at hstep with hplace
    cases hstep
    refine .givesBack ?_ rfl
    simp only [underway, leavingFtpmode, hplace, SenderThread.busy]
    omega

/-- A step that ends a transfer and does not give the lock back. -/
theorem stuck_of_sendfileStep (hs : Locked s) (hbad : ¬KeepsLaw event)
    (hstep : sendfileStep s event = some t) : t.underway = 0 ∧ t.inftp = true := by
  have hexclusive := hs.exclusive
  have hlocked : s.underway ≠ 0 → s.inftp = true := fun hne ↦
    (Bool.not_eq_false _).mp fun hfree ↦ hne (hs.locked hfree)
  cases event with
  | prepared port =>
    have hport : ¬port ≥ 0 := hbad
    obtain ⟨id, hplace, rfl⟩ := preparing_of_prepared hstep
    simp only [finishRequest, if_neg hport, underway, hplace, Handler.busy]
      at hexclusive hlocked ⊢
    exact ⟨by omega, hlocked (by omega)⟩
  | receptionEnds =>
    simp only [sendfileStep] at hstep
    split_ifs at hstep with hreceiving
    cases hstep
    simp only [underway, hreceiving, Bool.toNat_true, Bool.toNat_false] at hexclusive hlocked ⊢
    exact ⟨by omega, hlocked (by omega)⟩
  | created ok =>
    have hok : ¬ok = true := hbad
    simp only [sendfileStep] at hstep
    rw [if_neg hok] at hstep
    split_ifs at hstep with hcall
    cases hstep
    simp only [underway, hcall, SendCall.busy] at hexclusive hlocked ⊢
    exact ⟨by omega, hlocked (by omega)⟩
  | shortPacket | pdu | ftpSend | opened | sendFails | senderStarts | senderConnects | senderCloses
    | senderLeaves => exact absurd trivial hbad

/-! ### Runs -/

/-- Along every run a transfer that is under way is the only one, and has the lock. -/
theorem locked_sendfileStep (hs : Locked s) (hstep : sendfileStep s event = some t) :
    Locked t := by
  by_cases hgood : KeepsLaw event
  · have hexclusive := hs.exclusive
    cases lockEffect_sendfileStep hs hgood hstep with
    | goesOn hunderway hlock =>
      rw [← hunderway] at hexclusive
      refine ⟨hexclusive, fun hfree ↦ ?_⟩
      rw [hunderway]
      exact hs.locked (hlock ▸ hfree)
    | takes hfree hunderway hlock =>
      rw [hs.locked hfree] at hunderway
      refine ⟨by omega, fun hopen ↦ ?_⟩
      rw [hlock] at hopen
      cases hopen
    | givesBack hunderway _ =>
      have hzero : t.underway = 0 := by omega
      exact ⟨by omega, fun _ ↦ hzero⟩
  · obtain ⟨hzero, _⟩ := stuck_of_sendfileStep hs hgood hstep
    exact ⟨by omega, fun _ ↦ hzero⟩

/-- A new object has no transfer under way. -/
theorem underway_newSendfile (id : ℤ) (memory : Sendfile) : (newSendfile id memory).underway = 0 :=
  rfl

theorem locked_newSendfile (id : ℤ) (memory : Sendfile) : Locked (newSendfile id memory) := by
  have hzero := underway_newSendfile id memory
  exact ⟨by omega, fun _ ↦ hzero⟩

/-- Never are two transfers under way. -/
theorem underway_le_one {id : ℤ} {memory : Sendfile} {events : List SendfileEvent}
    (hrun : run sendfileStep (newSendfile id memory) events = some t) : t.underway ≤ 1 :=
  (run_invariant (fun _ _ _ hs hstep ↦ locked_sendfileStep hs hstep)
    (locked_newSendfile id memory) hrun).exclusive

/-- Within the law, a step that ends no transfer without giving the lock back keeps the law. -/
theorem lockLaw_sendfileStep (hs : Locked s ∧ LockLaw s) (hgood : KeepsLaw event)
    (hstep : sendfileStep s event = some t) : Locked t ∧ LockLaw t := by
  obtain ⟨hlocked, hlaw⟩ := hs
  have ht := locked_sendfileStep hlocked hstep
  refine ⟨ht, ht.exclusive, fun hzero ↦ ?_⟩
  have hfree : t.inftp = false := by
    cases lockEffect_sendfileStep hlocked hgood hstep with
    | goesOn hunderway hlock =>
      rw [hlock]
      exact (hlaw.released (hunderway ▸ hzero)).1
    | takes _ hunderway _ => omega
    | givesBack _ hlock => exact hlock
  refine ⟨hfree, ?_⟩
  rw [enteringFtpmode, if_pos hfree]

/-- A new object is within the law. -/
theorem lockLaw_newSendfile (id : ℤ) (memory : Sendfile) : LockLaw (newSendfile id memory) :=
  ⟨(locked_newSendfile id memory).exclusive, fun _ ↦ ⟨rfl, rfl⟩⟩

/-- Along a run of `ftp_send`, its thread and `cmd_handler`, at most one transfer is under way and
the lock is free whenever none is, exactly when no preparation for a `SENDREQ` fails, no reception
ends, and every thread is created. -/
theorem lockLaw_iff {id : ℤ} {memory : Sendfile} {events : List SendfileEvent}
    (hrun : run sendfileStep (newSendfile id memory) events = some t) :
    (∀ front back u, events = front ++ back →
        run sendfileStep (newSendfile id memory) front = some u → LockLaw u) ↔
      ∀ event ∈ events, KeepsLaw event := by
  refine law_along_iff (fun s ↦ Locked s ∧ LockLaw s) (fun _ hs ↦ hs.2)
    (fun _ _ _ hs hgood hstep ↦ lockLaw_sendfileStep hs hgood hstep) ?_
    ⟨locked_newSendfile id memory, lockLaw_newSendfile id memory⟩ hrun
  intro s event s' hs hbad hstep hlaw
  obtain ⟨hzero, htaken⟩ := stuck_of_sendfileStep hs.1 hbad hstep
  rw [(hlaw.released hzero).1] at htaken
  cases htaken

/-- A file is sent to the station 1, from `ftp_send` to the end of `ftpsend_main`. -/
theorem lockLaw_iff_one_file :
    (∀ front back u,
        [.ftpSend 1, .opened 3 (some 100), .created true, .senderStarts true 0,
            .pdu ⟨sendackCmd, 9, 3000⟩, .senderConnects, .senderCloses, .senderLeaves] =
          front ++ back →
        run sendfileStep (newSendfile 7 zeroedSendfile) front = some u → LockLaw u) ↔
      ∀ event ∈
          [.ftpSend 1, .opened 3 (some 100), .created true, .senderStarts true 0,
            .pdu ⟨sendackCmd, 9, 3000⟩, .senderConnects, .senderCloses, .senderLeaves],
        KeepsLaw event :=
  lockLaw_iff rfl

/-- The station 9 asks for a reception, which is prepared on the port 3000 and comes to its end: no
transfer is under way, and the lock is taken. -/
theorem not_lockLaw_reception_ends :
    ∃ u, run sendfileStep (newSendfile 7 zeroedSendfile)
        [.pdu ⟨sendreqCmd, 9, 0⟩, .prepared 3000, .receptionEnds] = some u ∧
      u.underway = 0 ∧ u.inftp = true ∧ u.enteringFtpmode.1 = false ∧ ¬LockLaw u := by
  refine ⟨_, rfl, rfl, rfl, rfl, fun hlaw ↦ ?_⟩
  have hfree := (hlaw.released rfl).1
  cases hfree

end Katmai.Udpcmdrcv
