import Katmai.FileServer.Datagram
import Katmai.Foundation.EventRun
import Katmai.Mqueue.MultipleQueue
import Katmai.StreamioV3.StbTable

/-!
# The main loops of the two file servers

`streamio_v2_main` and `streamio_v3_main` are handlers of a `thread_svc` worker: `thread_svc_main`
calls the handler again whenever it returns `0`. Both handlers loop over received datagrams, drop
those with a wrong checksum and those that come while services are stopped, and dispatch the others.
They differ in how they drop a datagram: version 3 goes on with its loop, version 2 leaves it and
returns `0`.

`Pc` says where the worker is, and `workerStep` is what it does by itself between two calls of
`recv`. `streamioV2Dispatch` and `streamioV3Dispatch` are the bodies of the two loops for one
datagram. `loopStep` is the machine of a worker whose handler has such a body: the worker moves,
nothing or a datagram is received, and another thread stops or resumes the services. What the
dispatch asks of the rest of the system (slots of the UDP table, ports, the file system) is an
argument of the event. `WithinArrays` says that a datagram of version 3 makes the server index its
arrays within their bounds: the channel of a request is not checked, nor is the length of a path.
-/

set_option autoImplicit false
set_option relaxedAutoImplicit false

namespace Katmai.FileServer

open Foundation StreamioV3

/-! ### The worker thread -/

/-- Where the worker is: at the loop of `thread_svc_main`, at the loop of the handler, in `recv`,
just returned from the handler, or gone. -/
inductive Pc
  | svcTest
  | mainTest
  | receiving
  | returned (rc : ℤ)
  | ended
  deriving DecidableEq, Repr

/-- A step of the worker by itself. A worker in `recv` waits. -/
def workerStep (thrTerminate pdTerminate : Bool) : Pc → Pc
  | .svcTest => if thrTerminate then .ended else .mainTest
  | .mainTest => if pdTerminate then .returned 0 else .receiving
  | .receiving => .receiving
  | .returned rc => if rc ≠ 0 then .ended else .svcTest
  | .ended => .ended

/-- How the handling of a datagram ends: the loop goes on, or it is left. -/
inductive Flow
  | next
  | leave
  deriving DecidableEq, Repr

/-- What the handling of a datagram gives. -/
structure Handled (σ : Type*) where
  flow : Flow
  state : σ
  sent : List Sent

/-- A server with its worker. -/
structure LoopServer (σ : Type*) where
  pc : Pc
  thrTerminate : Bool
  pdTerminate : Bool
  stopServices : Bool
  state : σ
  sent : List Sent

/-- What can happen: the worker moves, `recv` returns without a datagram, or with one, or another
thread calls `pause`, `start` or `stop`. -/
inductive LoopEvent (Env : Type*)
  | work
  | nothing
  | datagram (m : Received) (env : Env)
  | pause (p : ℤ)
  | start
  | stop

/-- The machine of a worker whose handler handles datagrams with `dispatch`, which is `none` where
the program has no defined behaviour. -/
def loopStep {σ Env : Type*} (dispatch : Bool → σ → Env → Received → Option (Handled σ))
    (s : LoopServer σ) : LoopEvent Env → Option (LoopServer σ)
  | .work => some { s with pc := workerStep s.thrTerminate s.pdTerminate s.pc }
  | .nothing => if s.pc = .receiving then some { s with pc := .mainTest } else none
  | .datagram m env =>
    if s.pc = .receiving then
      match dispatch s.stopServices s.state env m with
      | some handled =>
        some
          { s with
            pc := if handled.flow = .next then .mainTest else .returned 0
            state := handled.state
            sent := s.sent ++ handled.sent }
      | none => none
    else none
  | .pause p => some { s with stopServices := if p ≥ 0 then decide (p ≠ 0) else s.stopServices }
  | .start =>
    if s.pc = .ended then
      some { s with pdTerminate := false, thrTerminate := false, pc := .svcTest }
    else some { s with pdTerminate := false }
  | .stop =>
    if s.pc = .ended then some { s with pdTerminate := true }
    else some { s with pdTerminate := true, thrTerminate := true }

/-- A server whose worker has just been created. -/
def startServer {σ : Type*} (state : σ) : LoopServer σ where
  pc := .svcTest
  thrTerminate := false
  pdTerminate := false
  stopServices := false
  state := state
  sent := []

/-! ### Version 2 -/

/-- `STIOV2_PROTOCOL_VERSION`. -/
def stiov2ProtocolVersion : ℤ := 2

/-- What the registration of a client gives: the slot of its address in the UDP table and the port
of its entry, both negative for failure. The entries of the clients have sockets and threads of
their own, and the loop reads nothing of them. -/
structure V2Env where
  slot : ℤ
  port : ℤ

/-- The body of the loop of `streamio_v2_main`, for one datagram. -/
def streamioV2Dispatch (stopServices : Bool) (_ : Unit) (env : V2Env) (m : Received) :
    Option (Handled Unit) :=
  if !m.cksumOk then some ⟨.leave, (), []⟩
  else if stopServices then some ⟨.leave, (), []⟩
  else if getChar m.buffer 8 = 1 then
    if getInt m.buffer 14 = stiov2ProtocolVersion then some ⟨.next, (), [⟨m.source, m.bytes⟩]⟩
    else some ⟨.next, (), []⟩
  else if getChar m.buffer 8 = 2 then
    if env.slot < 0 ∨ env.port < 0 then some ⟨.next, (), []⟩
    else some ⟨.next, (), [⟨m.source, sealBytes (putInt m.buffer 10 env.port) m.len⟩]⟩
  else some ⟨.next, (), []⟩

/-! ### Version 3 -/

/-- `MAX_STIOV3_CHANNEL`. -/
def maxStiov3Channel : ℕ := 5

/-- `sizeof (struct stio_v3_pdu_t)`. -/
def pduSize : ℕ := 37

/-- What `streamio_v3_main` works on. -/
structure V3Server where
  myId : ℤ
  stbQosThreshold : ℤ
  versionMajor : ℤ
  versionMinor : ℤ
  table : StbTable
  netq : ℕ → Mqueue.MultipleQueue

/-- What the rest of the system contributes: the slot of the peer in the UDP table, the length of
the path that `file_pathname` gives for the file of the datagram and what `stat` and `open` find
there, the name that `real_filename` returns, what the variables `err` and `pdu` held before. -/
structure V3Env where
  slot : ℤ
  pathnameLen : ℕ
  lookup : Lookup
  realFilename : Option (ℕ → UInt8)
  err : ℤ
  pdu : ℕ → UInt8

/-- `check_regist`: the entry of a session number, or a `NEED_REGIST` to its sender. -/
def checkRegist (s : V3Server) (env : V3Env) (m : Received) : ℕ ⊕ Sent :=
  let sn := getInt m.buffer 8
  if s.myId = sn / 2 ^ 8 then .inl (sn % 2 ^ 8).toNat
  else .inr ⟨m.source, sealBytes (putInt env.pdu 4 7) pduSize⟩

/-- The channel of a datagram. -/
def channelOf (m : Received) : ℕ :=
  (getChar m.buffer 12).toNat

/-- An `OPENFILE` makes `stbtbl_setfile` open a file for entry `i`. -/
def OpensFile (s : V3Server) (m : Received) (i : ℕ) : Prop :=
  let ch := (s.table.stbent i).channel (channelOf m)
  i < s.table.count ∧ ¬ (ch.stbid = getInt m.buffer 25 ∧ getUInt m.buffer 17 ≤ ch.filecount)

instance decidableOpensFile (s : V3Server) (m : Received) (i : ℕ) : Decidable (OpensFile s m i) :=
  inferInstanceAs (Decidable (_ ∧ _))

/-- The handling of a request for entry `i` stays within the arrays: the channel is one of the
channels of the entry, and the path of a file to be opened fits in its 256 bytes. -/
def WithinArrays (s : V3Server) (env : V3Env) (m : Received) (i : ℕ) : Prop :=
  (i < s.table.count →
    0 ≤ getChar m.buffer 12 ∧ getChar m.buffer 12 < maxStiov3Channel) ∧
  (getInt m.buffer 4 = 2 → OpensFile s m i → env.pathnameLen < 256)

instance decidableWithinArrays (s : V3Server) (env : V3Env) (m : Received) (i : ℕ) :
    Decidable (WithinArrays s env m i) :=
  inferInstanceAs (Decidable (_ ∧ _))

/-- The `REGIST` branch. -/
def handleRegist (s : V3Server) (env : V3Env) (m : Received) : Handled V3Server :=
  let (i, table) := s.table.stbtblRegist m.source.ip env.slot
  let sn := if i ≥ 0 then s.myId * 2 ^ 8 + i else -1
  let buffer := putInt m.buffer 8 sn
  let buffer := putInt buffer 12 s.stbQosThreshold
  let buffer := putInt buffer 16 s.versionMajor
  let buffer := putInt buffer 20 s.versionMinor
  ⟨.next, { s with table := table }, [⟨m.source, sealBytes buffer 24⟩]⟩

/-- The `OPENFILE` branch for entry `i`. -/
def handleOpenfile (s : V3Server) (env : V3Env) (m : Received) (i : ℕ) : Handled V3Server :=
  let channel := channelOf m
  let (result, table) :=
    s.table.stbtblSetfile i channel env.lookup (getUInt m.buffer 17) (getInt m.buffer 25)
  let buffer := putInt m.buffer 21 result.filesize
  let buffer : ℕ → UInt8 :=
    match (if OpensFile s m i then env.realFilename else none) with
    | some name => fun j ↦ if 30 ≤ j ∧ j < 37 then name (j - 30) else buffer j
    | none => fun j ↦ if j = 30 then 0 else buffer j
  let buffer := putInt buffer 13 (result.err.getD env.err)
  ⟨.next, { s with table := table.stbtblInit i (getInt m.buffer 8) },
    [⟨m.source, sealBytes buffer m.len⟩]⟩

/-- The `FETCH` branch for entry `i`. -/
def handleFetch (s : V3Server) (m : Received) (i : ℕ) : Handled V3Server :=
  let channel := channelOf m
  if s.table.stbtblIsFileMatched i channel (getUInt m.buffer 17) then
    let table := s.table.stbtblSetrequest i channel (getInt m.buffer 21)
      (fun j ↦ m.buffer (29 + j)) (getInt m.buffer 25)
    let netq :=
      if i < s.table.count then
        Function.update s.netq channel ((s.netq channel).mqEnqueue i 1)
      else s.netq
    ⟨.next, { s with table := table, netq := netq },
      [⟨m.source, sealBytes (putInt m.buffer 4 8) m.len⟩]⟩
  else ⟨.next, s, [⟨m.source, sealBytes (putInt m.buffer 4 9) m.len⟩]⟩

/-- The body of the loop of `streamio_v3_main`, for one datagram. -/
def streamioV3Dispatch (stopServices : Bool) (s : V3Server) (env : V3Env) (m : Received) :
    Option (Handled V3Server) :=
  if !m.cksumOk then some ⟨.next, s, []⟩
  else if stopServices then some ⟨.next, s, []⟩
  else if getInt m.buffer 4 = 0 then some ⟨.next, s, [⟨m.source, m.bytes⟩]⟩
  else if getInt m.buffer 4 = 1 then some (handleRegist s env m)
  else if getInt m.buffer 4 = 2 then
    match checkRegist s env m with
    | .inl i => if WithinArrays s env m i then some (handleOpenfile s env m i) else none
    | .inr reply => some ⟨.next, s, [reply]⟩
  else if getInt m.buffer 4 = 3 then
    match checkRegist s env m with
    | .inl i => if WithinArrays s env m i then some (handleFetch s m i) else none
    | .inr reply => some ⟨.next, s, [reply]⟩
  else if getInt m.buffer 4 = 5 then
    match checkRegist s env m with
    | .inl _ => some ⟨.next, s, []⟩
    | .inr reply => some ⟨.next, s, [reply]⟩
  else some ⟨.next, s, []⟩

end Katmai.FileServer
