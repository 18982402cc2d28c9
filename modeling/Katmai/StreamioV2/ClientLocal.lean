import Katmai.StreamioV2.ClientEntry
import Mathlib.Logic.Function.Basic

/-!
# One channel of a `streamio_v2` client

`struct stio_v2_client_local_t` with the functions of `streamio_v2/client.c` and `client/internal.c`
that work on it. The thread of the application opens files and reads them block by block
(`cli_openfile`, `cli_read`, `internal_read`); the thread of `client_main` hands the datagrams that
come in to `response`. `internal_sendwait`, in which the first thread waits for the second, sends a
request, sends it again after a timeout, and goes through `internal_reopen` when the server has
asked for it; which of these happens next is up to the run.

`response` takes a packet in two steps. It clears the flag of the packet and counts it, and only
then copies its data: `storing` is a copy that is still to be made.
-/

set_option autoImplicit false
set_option relaxedAutoImplicit false

namespace Katmai.StreamioV2

open Foundation

/-- An `internal_read` that is going on: the block it was called for and what it will return. -/
structure Reading where
  ndcnt : ℤ
  rc : ℤ
  deriving DecidableEq, Repr

/-- Where the thread of the application is: in no call, in `internal_reopen` (called by
`cli_openfile`, or from inside an `internal_read`), or in `internal_read`. -/
inductive Phase
  | idle
  | opening (resume : Option Reading)
  | reading (r : Reading)
  deriving DecidableEq, Repr

/-- The last `memcpy` of `response`: the number of the packet, the number of bytes, the data. -/
structure Store where
  map : ℕ
  count : ℕ
  data : ℕ → UInt8

/-- `struct stio_v2_client_local_t`. `requestFilecnt`, `requestNdcnt`, `requestLen` and `map` are
the request in `fread_pdu`, `filename` is the name in `fopen_pdu`, and `abort` is the flag of the
client. -/
structure ClientLocal where
  abort : Bool
  fsize : ℤ
  filecnt : ℤ
  filename : String
  requestFilecnt : ℤ
  requestNdcnt : ℤ
  requestLen : ℤ
  map : ℕ → Bool
  needFilesize : Bool
  needReopen : Bool
  haveFile : Bool
  buffer : ℕ → UInt8
  bidx : ℤ
  blen : ℤ
  requestMap : ℤ
  ndtotal : ℤ
  ndcnt : ℤ
  errcode : ℤ
  diskBufsize : ℕ
  netBufsize : ℕ
  disknetFact : ℕ
  packetMap : ℕ
  storing : Option Store
  phase : Phase

namespace ClientLocal

/-! ### The thread of the application -/

/-- The first lines of `internal_reopen`. -/
def beginReopen (cl : ClientLocal) (resume : Option Reading) : ClientLocal :=
  { cl with fsize := 0, needFilesize := true, phase := .opening resume }

/-- `cli_openfile` up to the wait of `internal_reopen`. -/
def cliOpenfile (cl : ClientLocal) (fname : String) : ClientLocal :=
  { cl with
    abort := false
    filecnt := cl.filecnt + 1
    ndcnt := 0
    ndtotal := 0
    bidx := 0
    blen := 0
    filename := String.ofList (fname.toList.take 63) }.beginReopen none

/-- The datagram in `fopen_pdu`. -/
def openRequest (cl : ClientLocal) : Message :=
  .openfile cl.filecnt cl.filename

/-- The number of blocks of a file. -/
def blockTotal (fsize : ℤ) (netBufsize : ℕ) : ℤ :=
  fsize.tdiv netBufsize + if fsize.tmod netBufsize ≠ 0 then 1 else 0

/-- What follows the wait of `internal_reopen`: the end of `cli_openfile`, or the read goes on. -/
def endReopen (cl : ClientLocal) : Option Reading → ClientLocal
  | none =>
    if cl.fsize > 0 then
      { cl with haveFile := true, ndtotal := blockTotal cl.fsize cl.netBufsize, phase := .idle }
    else { cl with phase := .idle }
  | some r => { cl with phase := .reading r }

/-- `cli_reopen`. -/
def cliReopen (cl : ClientLocal) : ClientLocal :=
  { cl with ndcnt := 0, bidx := 0, blen := 0 }

/-- `cli_closefile`. -/
def cliClosefile (cl : ClientLocal) : ClientLocal :=
  { cl with haveFile := true }

/-- `cli_read` goes to `internal_read`. -/
def NeedsBlock (cl : ClientLocal) : Prop :=
  cl.haveFile = true ∧ cl.blen ≤ 0 ∧ cl.ndcnt < cl.ndtotal

instance (cl : ClientLocal) : Decidable cl.NeedsBlock :=
  inferInstanceAs (Decidable (_ ∧ _))

/-- The number of bytes of the file from the wanted block on. -/
def lenLeft (cl : ClientLocal) : ℤ :=
  cl.fsize - cl.ndcnt * cl.netBufsize

/-- The number of packets that are asked for. -/
def packetsWanted (cl : ClientLocal) : ℤ :=
  if cl.lenLeft ≥ cl.netBufsize then cl.packetMap
  else cl.lenLeft.tdiv carryDatasize + if cl.lenLeft.tmod carryDatasize ≠ 0 then 1 else 0

/-- The value of `fread_pdu.len`, which is also what `internal_read` returns. -/
def readLen (cl : ClientLocal) : ℤ :=
  if cl.lenLeft ≥ cl.netBufsize then cl.netBufsize else cl.lenLeft

/-- `cli_read` and `internal_read` up to the wait for the packets. -/
def beginRead (cl : ClientLocal) : ClientLocal :=
  { cl with
    bidx := 0
    requestFilecnt := cl.filecnt
    requestNdcnt := cl.ndcnt
    requestLen := cl.readLen
    requestMap := cl.packetsWanted
    map := fun i ↦
      if (i : ℤ) < cl.packetsWanted then true else if i < cl.packetMap then false else cl.map i
    phase := .reading ⟨cl.ndcnt, cl.readLen⟩ }

/-- The datagram in `fread_pdu`. -/
def fetchRequest (cl : ClientLocal) : Message :=
  .fetch cl.requestFilecnt cl.requestNdcnt cl.requestLen cl.map

/-- `internal_read` has returned `rc` to `cli_read`. -/
def endRead (cl : ClientLocal) (rc : ℤ) : ClientLocal :=
  { cl with blen := rc, ndcnt := cl.ndcnt + 1, phase := .idle }

/-- The last lines of `cli_read`, with a caller that wants `len` bytes. -/
def takeBytes (cl : ClientLocal) (len : ℕ) : ClientLocal :=
  if cl.blen > 0 then
    let rc : ℤ := if cl.blen ≥ len then len else cl.blen
    { cl with blen := cl.blen - rc, bidx := cl.bidx + rc }
  else cl

/-- The thread of the application is in `internal_read`. -/
def isReading (cl : ClientLocal) : Bool :=
  match cl.phase with
  | .reading _ => true
  | _ => false

/-- The first `rc` bytes of the buffer. -/
def readBytes (cl : ClientLocal) (rc : ℤ) : List UInt8 :=
  (List.range rc.toNat).map cl.buffer

/-! ### The thread of `client_main` -/

/-- The `FETCH` branch of `response`. It looks at the number of the packet only, not at the file
and the block that it is for. -/
def acceptPacket (cl : ClientLocal) (packet : DataPacket) : ClientLocal :=
  if cl.requestMap > 0 ∧ cl.map packet.map = true then
    { cl with
      map := Function.update cl.map packet.map false
      requestMap := cl.requestMap - 1
      storing := some
        { map := packet.map
          count :=
            if packet.map = cl.packetMap - 1 then cl.netBufsize - carryDatasize * packet.map
            else carryDatasize
          data := packet.data } }
  else cl

/-- The copy that ends the `FETCH` branch. -/
def storePacket (cl : ClientLocal) (store : Store) : ClientLocal :=
  { cl with
    buffer := copyInto cl.buffer (carryDatasize * store.map) store.count store.data
    storing := none }

/-- `response` for one datagram of the channel. -/
def response (cl : ClientLocal) : Message → ClientLocal
  | .openError lerrno =>
    if cl.needFilesize then { cl with needFilesize := false, fsize := 0, errcode := lerrno } else cl
  | .fetchError errcode _ => if errcode = errReopen then { cl with needReopen := true } else cl
  | .openOk _ filesize diskBufsize netBufsize disknetFact packetMap =>
    if cl.needFilesize then
      { cl with
        needFilesize := false
        fsize := filesize
        needReopen := false
        diskBufsize := diskBufsize
        netBufsize := netBufsize
        disknetFact := disknetFact
        packetMap := packetMap }
    else cl
  | .data _ _ packet => cl.acceptPacket packet
  | .openfile .. => cl
  | .fetch .. => cl

end ClientLocal

/-! ### A client and its server over a network -/

/-- A result of `internal_read`: the block it was called for, the return code, and the bytes in the
buffer. -/
structure BlockReturn where
  ndcnt : ℤ
  rc : ℤ
  bytes : List UInt8
  deriving DecidableEq, Repr

/-- A client channel, its channel in the server, the datagrams sent so far, and the results of
`internal_read`. A delivery handles any datagram that was ever sent, so that datagrams may be lost,
duplicated, delayed and overtaken. -/
structure Session where
  client : ClientLocal
  server : ServerLocal
  net : List Message
  returned : List BlockReturn

/-- What can happen next. Deliveries name the datagram by its position in the network. -/
inductive SessionEvent
  | openfile (fname : String)
  | sendOpen
  | reopenReturn
  | abort
  | abortReturn
  | reopenNeeded
  | reopen
  | closefile
  | startRead
  | sendFetch
  | finishRead
  | take (len : ℕ)
  | toServer (k : ℕ) (env : ServerEnv)
  | toClient (k : ℕ)
  | store

/-- One step of a session. -/
def sessionStep (p : Parameter) (fs : String → Lookup) (s : Session) :
    SessionEvent → Option Session
  | .openfile fname =>
    if s.client.phase = .idle then some { s with client := s.client.cliOpenfile fname } else none
  | .sendOpen =>
    match s.client.phase with
    | .opening _ => some { s with net := s.net ++ [s.client.openRequest] }
    | _ => none
  | .reopenReturn =>
    match s.client.phase with
    | .opening resume =>
      if s.client.needFilesize then none
      else some { s with client := s.client.endReopen resume }
    | _ => none
  | .abort => some { s with client := { s.client with abort := true } }
  | .abortReturn =>
    if s.client.abort then
      match s.client.phase with
      | .idle => none
      | .opening none => some { s with client := { s.client with phase := .idle } }
      | .opening (some r) | .reading r =>
        some
          { s with
            client := s.client.endRead (-1)
            returned := s.returned ++ [⟨r.ndcnt, -1, []⟩] }
    else none
  | .reopenNeeded =>
    if s.client.needReopen then
      match s.client.phase with
      | .idle => none
      | .opening resume =>
        some { s with client := { s.client with needReopen := false }.beginReopen resume }
      | .reading r =>
        some { s with client := { s.client with needReopen := false }.beginReopen (some r) }
    else none
  | .reopen => if s.client.phase = .idle then some { s with client := s.client.cliReopen } else none
  | .closefile =>
    if s.client.phase = .idle then some { s with client := s.client.cliClosefile } else none
  | .startRead =>
    if s.client.phase = .idle ∧ s.client.NeedsBlock then
      some { s with client := s.client.beginRead }
    else none
  | .sendFetch =>
    match s.client.phase with
    | .reading _ => some { s with net := s.net ++ [s.client.fetchRequest] }
    | _ => none
  | .finishRead =>
    match s.client.phase with
    | .reading r =>
      if s.client.requestMap = 0 then
        some
          { s with
            client := s.client.endRead r.rc
            returned := s.returned ++ [⟨r.ndcnt, r.rc, s.client.readBytes r.rc⟩] }
      else none
    | _ => none
  | .take len =>
    if s.client.phase = .idle then some { s with client := s.client.takeBytes len } else none
  | .toServer k env =>
    match s.net[k]? with
    | some m =>
      let (server, replies) := ceSvcMain p fs env s.server m
      some { s with server := server, net := s.net ++ replies }
    | none => none
  | .toClient k =>
    match s.net[k]?, s.client.storing with
    | some m, none => some { s with client := s.client.response m }
    | _, _ => none
  | .store =>
    match s.client.storing with
    | some store => some { s with client := s.client.storePacket store }
    | none => none

/-! ### What a step does -/

section Steps

variable {p : Parameter} {fs : String → Lookup} {s s' : Session}

theorem sessionStep_sendOpen : sessionStep p fs s .sendOpen = some s' ↔
    ∃ resume, s.client.phase = .opening resume ∧
      { s with net := s.net ++ [s.client.openRequest] } = s' := by
  cases hphase : s.client.phase <;> simp [sessionStep, hphase]

theorem sessionStep_reopenReturn : sessionStep p fs s .reopenReturn = some s' ↔
    ∃ resume, s.client.phase = .opening resume ∧ s.client.needFilesize = false ∧
      { s with client := s.client.endReopen resume } = s' := by
  cases hphase : s.client.phase <;> simp [sessionStep, hphase]

theorem sessionStep_abortReturn : sessionStep p fs s .abortReturn = some s' ↔
    s.client.abort = true ∧
      ((s.client.phase = .opening none ∧
          { s with client := { s.client with phase := .idle } } = s') ∨
        ∃ r, (s.client.phase = .opening (some r) ∨ s.client.phase = .reading r) ∧
          { s with
            client := s.client.endRead (-1)
            returned := s.returned ++ [⟨r.ndcnt, -1, []⟩] } = s') := by
  cases hphase : s.client.phase with
  | idle => simp [sessionStep, hphase]
  | opening resume => cases resume <;> simp [sessionStep, hphase]
  | reading r => simp [sessionStep, hphase]

theorem sessionStep_reopenNeeded : sessionStep p fs s .reopenNeeded = some s' ↔
    s.client.needReopen = true ∧ ∃ resume,
      (s.client.phase = .opening resume ∨ ∃ r, s.client.phase = .reading r ∧ resume = some r) ∧
      { s with client := { s.client with needReopen := false }.beginReopen resume } = s' := by
  cases hphase : s.client.phase <;> simp [sessionStep, hphase]

theorem sessionStep_sendFetch : sessionStep p fs s .sendFetch = some s' ↔
    ∃ r, s.client.phase = .reading r ∧
      { s with net := s.net ++ [s.client.fetchRequest] } = s' := by
  cases hphase : s.client.phase <;> simp [sessionStep, hphase]

theorem sessionStep_finishRead : sessionStep p fs s .finishRead = some s' ↔
    ∃ r, s.client.phase = .reading r ∧ s.client.requestMap = 0 ∧
      { s with
        client := s.client.endRead r.rc
        returned := s.returned ++ [⟨r.ndcnt, r.rc, s.client.readBytes r.rc⟩] } = s' := by
  cases hphase : s.client.phase <;> simp [sessionStep, hphase]

theorem sessionStep_toServer {k : ℕ} {env : ServerEnv} :
    sessionStep p fs s (.toServer k env) = some s' ↔
      ∃ m, s.net[k]? = some m ∧
        { s with
          server := (ceSvcMain p fs env s.server m).1
          net := s.net ++ (ceSvcMain p fs env s.server m).2 } = s' := by
  cases hm : s.net[k]? <;> simp [sessionStep, hm]

theorem sessionStep_toClient {k : ℕ} : sessionStep p fs s (.toClient k) = some s' ↔
    ∃ m, s.net[k]? = some m ∧ s.client.storing = none ∧
      { s with client := s.client.response m } = s' := by
  cases hm : s.net[k]? <;> cases hstoring : s.client.storing <;> simp [sessionStep, hm, hstoring]

theorem sessionStep_store : sessionStep p fs s .store = some s' ↔
    ∃ store, s.client.storing = some store ∧
      { s with client := s.client.storePacket store } = s' := by
  cases hstoring : s.client.storing <;> simp [sessionStep, hstoring]

end Steps

end Katmai.StreamioV2
