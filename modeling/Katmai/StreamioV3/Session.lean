import Katmai.StreamioV3.Client

/-!
# A client channel and its server over a network

One channel of one client, the entry of the server table that serves it, and the datagrams between
them. The network keeps every datagram that was ever sent: a delivery handles any of them, so that a
datagram may be lost (never delivered), duplicated (delivered again), delayed and overtaken. The
client's two threads and the server's threads move one at a time in any order (`sessionStep`).

`streamioV3Main` is the dispatch of `streamio_v3_main` for the datagrams of a channel. A service
pass may happen at any time, in particular whenever the queue of the channel hands out the entry;
it holds the mutex of the channel from `stbtbl_read` to the last packet.

`Session` also keeps books: the results of `internal_read`, the results of `internal_reopen_file`,
and the names that `stiov3_openfile` was called with. No step of the two programs reads them.
-/

set_option autoImplicit false
set_option relaxedAutoImplicit false

namespace Katmai.StreamioV3

open Foundation

/-- What the server's environment contributes to a datagram: what `real_filename` returns, with an
empty name for `NULL`, and what the variable `err` of the main loop held before. -/
structure ServerEnv where
  realFilename : String
  err : ℤ

/-- The dispatch of `streamio_v3_main` for the datagrams of one channel of a registered client. The
file system `fs` says what `stat` and `open` find under the path of a name. -/
def streamioV3Main (fs : String → Lookup) (env : ServerEnv) (ch : StbChannel) :
    Message → StbChannel × List Message
  | .openfile filecnt stbid file =>
    let (result, ch') := ch.setfile (fs file) filecnt stbid
    let realFile := if ch.stbid = stbid ∧ filecnt ≤ ch.filecount then "" else env.realFilename
    (ch', [.openReply filecnt result.filesize (result.err.getD env.err) realFile])
  | .fetch false filecnt block qos map =>
    if ch.isFileMatched filecnt then
      (ch.setrequest block map qos, [.fetchResponse filecnt block])
    else (ch, [.needReopen filecnt block])
  | .fetch true .. => (ch, [])
  | .openReply .. => (ch, [])
  | .fetchResponse .. => (ch, [])
  | .needReopen .. => (ch, [])
  | .data .. => (ch, [])

/-- The datagrams of a service pass. They carry the open number and the block that the entry holds
at that time. -/
def passMessages (ch : StbChannel) (short : ℕ → ℕ) : List Message :=
  (ch.servicePass short).1.map fun packet ↦ .data ch.filecount ch.requestBlock packet

/-- A result of `internal_read`: the block it was called for and the bytes it returned. -/
structure BlockReturn where
  block : ℕ
  bytes : List UInt8
  deriving DecidableEq, Repr

/-- A result of `internal_reopen_file` that was not cut short: the number of the open and the file
size the client has then. -/
structure OpenReturn where
  filecnt : ℕ
  filesize : ℤ
  deriving DecidableEq, Repr

/-- A client channel, its entry in the server, the datagrams sent so far, and the books. -/
structure Session where
  client : ClientChannel
  server : StbChannel
  net : List Message
  returned : List BlockReturn
  opens : List OpenReturn
  names : List (ℕ × String)

/-- What can happen next. Deliveries name the datagram by its position in the network. -/
inductive SessionEvent
  | openfile (fname : String)
  | sendOpen
  | reopenReturn
  | abort
  | cutReturn
  | reopenNeeded
  | seek (pos : ℤ)
  | reopen
  | startRead
  | sendFetch
  | responseSeen
  | fastFetch
  | finishRead
  | toServer (k : ℕ) (env : ServerEnv)
  | toClient (k : ℕ)
  | service (short : ℕ → ℕ)

/-- Whether `cut` ends the waits of the channel. -/
def ClientChannel.isCut (cl : ClientChannel) : Bool :=
  cl.cut && cl.channel != publicChannel

/-- One step of a session. -/
def sessionStep (fs : String → Lookup) (s : Session) : SessionEvent → Option Session
  | .openfile fname =>
    if s.client.phase = .idle ∧ fname.utf8ByteSize ≤ 100 then
      let client := s.client.stiov3Openfile fname
      some { s with client := client, names := s.names ++ [(client.filecnt, fname)] }
    else none
  | .sendOpen =>
    match s.client.phase with
    | .opening _ => some { s with net := s.net ++ [s.client.openRequest] }
    | _ => none
  | .reopenReturn =>
    match s.client.phase with
    | .opening resume =>
      if s.client.needFilesize then none
      else
        some
          { s with
            client := s.client.endReopen resume
            opens := s.opens ++ [⟨s.client.filecnt, s.client.filesize⟩] }
    | _ => none
  | .abort => some { s with client := { s.client with cut := true } }
  | .cutReturn =>
    if s.client.isCut ∧ s.client.phase ≠ .idle then
      some { s with client := { s.client with phase := .idle } }
    else none
  | .reopenNeeded =>
    if s.client.needReopen then
      match s.client.phase with
      | .idle => none
      | .opening resume =>
        some { s with client := { s.client with needReopen := false }.beginReopen resume }
      | .reading r =>
        some { s with client := { s.client with needReopen := false }.beginReopen (some r) }
    else none
  | .seek pos =>
    if s.client.phase = .idle then some { s with client := s.client.stiov3Seek pos } else none
  | .reopen =>
    if s.client.phase = .idle then some { s with client := s.client.stiov3Reopen } else none
  | .startRead =>
    if s.client.phase = .idle then some { s with client := s.client.beginRead } else none
  | .sendFetch =>
    match s.client.phase with
    | .reading _ => some { s with net := s.net ++ [s.client.fetchRequest] }
    | _ => none
  | .responseSeen =>
    match s.client.phase with
    | .reading r =>
      if r.stage = .response ∧ s.client.vodsvrResponse then
        some { s with client := s.client.beginData r }
      else none
    | _ => none
  | .fastFetch =>
    match s.client.phase with
    | .reading r =>
      if r.stage = .data ∧ s.client.qos < s.client.qosThreshold then
        some { s with client := { s.client with fast := true } }
      else none
    | _ => none
  | .finishRead =>
    match s.client.phase with
    | .reading r =>
      if r.stage = .data ∧ s.client.brcvcnt = 0 then
        some
          { s with
            client := s.client.endRead
            returned := s.returned ++ [⟨r.block, s.client.readBytes r.expectLen⟩] }
      else none
    | _ => none
  | .toServer k env =>
    match s.net[k]? with
    | some m =>
      let (server, replies) := streamioV3Main fs env s.server m
      some { s with server := server, net := s.net ++ replies }
    | none => none
  | .toClient k =>
    match s.net[k]? with
    | some m => some { s with client := s.client.streamioV3Response m }
    | none => none
  | .service short =>
    some
      { s with
        server := (s.server.servicePass short).2
        net := s.net ++ passMessages s.server short }

/-! ### What a step does -/

section Steps

variable {fs : String → Lookup} {s s' : Session}

theorem sessionStep_sendOpen : sessionStep fs s .sendOpen = some s' ↔
    ∃ resume, s.client.phase = .opening resume ∧
      { s with net := s.net ++ [s.client.openRequest] } = s' := by
  cases hphase : s.client.phase <;> simp [sessionStep, hphase]

theorem sessionStep_reopenReturn : sessionStep fs s .reopenReturn = some s' ↔
    ∃ resume, s.client.phase = .opening resume ∧ s.client.needFilesize = false ∧
      { s with
        client := s.client.endReopen resume
        opens := s.opens ++ [⟨s.client.filecnt, s.client.filesize⟩] } = s' := by
  cases hphase : s.client.phase <;> simp [sessionStep, hphase]

theorem sessionStep_reopenNeeded : sessionStep fs s .reopenNeeded = some s' ↔
    s.client.needReopen = true ∧ ∃ resume,
      (s.client.phase = .opening resume ∨ ∃ r, s.client.phase = .reading r ∧ resume = some r) ∧
      { s with client := { s.client with needReopen := false }.beginReopen resume } = s' := by
  cases hphase : s.client.phase <;> simp [sessionStep, hphase]

theorem sessionStep_sendFetch : sessionStep fs s .sendFetch = some s' ↔
    ∃ r, s.client.phase = .reading r ∧
      { s with net := s.net ++ [s.client.fetchRequest] } = s' := by
  cases hphase : s.client.phase <;> simp [sessionStep, hphase]

theorem sessionStep_responseSeen : sessionStep fs s .responseSeen = some s' ↔
    ∃ r, s.client.phase = .reading r ∧ (r.stage = .response ∧ s.client.vodsvrResponse = true) ∧
      { s with client := s.client.beginData r } = s' := by
  cases hphase : s.client.phase <;> simp [sessionStep, hphase]

theorem sessionStep_fastFetch : sessionStep fs s .fastFetch = some s' ↔
    ∃ r, s.client.phase = .reading r ∧
      (r.stage = .data ∧ s.client.qos < s.client.qosThreshold) ∧
      { s with client := { s.client with fast := true } } = s' := by
  cases hphase : s.client.phase <;> simp [sessionStep, hphase]

theorem sessionStep_finishRead : sessionStep fs s .finishRead = some s' ↔
    ∃ r, s.client.phase = .reading r ∧ (r.stage = .data ∧ s.client.brcvcnt = 0) ∧
      { s with
        client := s.client.endRead
        returned := s.returned ++ [⟨r.block, s.client.readBytes r.expectLen⟩] } = s' := by
  cases hphase : s.client.phase <;> simp [sessionStep, hphase]

theorem sessionStep_toServer {k : ℕ} {env : ServerEnv} :
    sessionStep fs s (.toServer k env) = some s' ↔
      ∃ m, s.net[k]? = some m ∧
        { s with
          server := (streamioV3Main fs env s.server m).1
          net := s.net ++ (streamioV3Main fs env s.server m).2 } = s' := by
  cases hm : s.net[k]? <;> simp [sessionStep, hm]

theorem sessionStep_toClient {k : ℕ} : sessionStep fs s (.toClient k) = some s' ↔
    ∃ m, s.net[k]? = some m ∧ { s with client := s.client.streamioV3Response m } = s' := by
  cases hm : s.net[k]? <;> simp [sessionStep, hm]

end Steps

end Katmai.StreamioV3
