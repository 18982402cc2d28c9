import Katmai.Ftpclient.Getreply
import Mathlib.Logic.Function.Basic

/-!
# Transfers

`get`, `reget`, `put` and `dir` of the client, down to the bytes that come over the data connection.
A transfer asks for a passive connection, connects to the address in the reply, asks for the file
and copies until the data ends; a `reget` first asks the server to start at the size of the local
file. What the rest of the world does in a transfer is a `World`; the server's side of the control
connection is the stream that `getreply` reads.

A call that never returns, since a reply does not end, and one that follows a null pointer leave no
client; the local files are there in every case.
-/

set_option autoImplicit false
set_option relaxedAutoImplicit false

namespace Katmai.Ftpclient

abbrev Bytes := List UInt8

/-- The name of a file; it holds no zero. -/
abbrev Name := List UInt8

abbrev Files := Name → Option Bytes

/-- The commands of the transfers: `PASV`, `REST %ld`, `RETR %s`, `LIST` or `LIST %s`, `STOR %s`. -/
inductive Cmd where
  | pasv
  | rest (restartPoint : ℕ)
  | retr (remote : Name)
  | list (path : Option Name)
  | stor (remote : Name)
  deriving DecidableEq

/-- An address and a port, in host byte order. -/
abbrev DataAddr := BitVec 32 × BitVec 16

/-- The client: the fields that the transfers use, what the server will still send on the control
connection, and what the client has sent. -/
structure Ftp where
  self : FtpClient
  passive : Bool
  restartPoint : ℕ
  dataAddr : DataAddr
  input : Bytes
  cmds : List Cmd
  answers : List Sent

/-- What the rest of the world does in a transfer. -/
structure World where
  /-- `socket` gives a descriptor. -/
  socket : Bool
  /-- `connect` to an address succeeds. -/
  connect : DataAddr → Bool
  /-- `fopen` of the local file for writing succeeds. -/
  creates : Bool
  /-- What the reads from the data connection give after these commands, up to its end, and of each
  piece how many bytes the write to the local file takes. -/
  pieces : List Cmd → List (Bytes × ℕ)
  /-- How many bytes the writes to the data connection take, none if they fail. -/
  writes : ℕ → ℕ

/-! ### Commands -/

/-- `getreply`: what does not end after as many rounds as there are characters does not end. -/
def reply (s : Ftp) : Option (ℤ × Ftp) :=
  (getreply (s.input.length + 1) s.self s.input).map fun r ↦
    (r.value, { s with self := r.self, input := r.input, answers := s.answers ++ r.sent })

/-- `command` on an open control connection -/
def command (s : Ftp) (cmd : Cmd) : Option (ℤ × Ftp) :=
  reply { s with cmds := s.cmds ++ [cmd] }

/-! ### The address of the data connection -/

def isspace (b : UInt8) : Bool :=
  b == 32 || (9 ≤ b && b ≤ 13)

/-- The value of the digits at the front. -/
def scanDigits : Bytes → ℕ → ℕ × Bytes
  | [], v => (v, [])
  | b :: text, v =>
    if isdigit b.toNat then scanDigits text (v * 10 + (b.toNat - 48)) else (v, b :: text)

/-- `%ld`: a number that is too large is the largest one. -/
def scanLong (text : Bytes) : Option (ℤ × Bytes) :=
  let text := text.dropWhile isspace
  let minus := text.head? = some 45
  let text := if minus ∨ text.head? = some 43 then text.tail else text
  if (text.head?.map fun b ↦ isdigit b.toNat) = some true then
    let v : ℤ := (scanDigits text 0).1
    let longMax := 9223372036854775807
    let value := if minus then if v ≤ longMax then -v else -longMax - 1
      else if v ≤ longMax then v else longMax
    some (value, (scanDigits text 0).2)
  else none

/-- `sscanf` of numbers with commas between them, all of which must be there. -/
def scanLongs : ℕ → Bytes → Option (List ℤ)
  | 0, _ => some []
  | 1, text => (scanLong text).map fun (v, _) ↦ [v]
  | n + 2, text =>
    (scanLong text).bind fun (v, rest) ↦
      if rest.head? = some 44 then (scanLongs (n + 1) rest.tail).map (v :: ·) else none

/-- The numbers `a1`, `a2`, `a3`, `a4`, `p1` and `p2` as an address and a port. -/
def dataAddrOf (a1 a2 a3 a4 p1 p2 : ℤ) : DataAddr :=
  let u (v : ℤ) : BitVec 64 := BitVec.ofInt 64 v
  ((u a1 <<< 24 ||| u a2 <<< 16 ||| u a3 <<< 8 ||| u a4).setWidth 32,
    (u p1 <<< 8 ||| u p2).setWidth 16)

/-- The string in `pasv`. -/
def pasvText (self : FtpClient) : Bytes :=
  self.pasv.takeWhile (· != 0)

def scanPasv (self : FtpClient) : Option DataAddr :=
  match scanLongs 6 (pasvText self) with
  | some [a1, a2, a3, a4, p1, p2] => some (dataAddrOf a1 a2 a3 a4 p1 p2)
  | _ => none

/-- `initconn` -/
def initconn (w : World) (s : Ftp) : Option (Bool × Ftp) :=
  if s.passive then
    if w.socket then
      (command s .pasv).map fun (rc, s) ↦
        if rc ≠ 2 then (false, { s with passive := false })
        else
          match scanPasv s.self with
          | none => (false, { s with passive := false })
          | some addr => (w.connect addr, { s with dataAddr := addr })
    else some (false, s)
  else some (false, s)

/-- `self->pd.code = -1` -/
def setCode (s : Ftp) (code : ℤ) : Ftp :=
  { s with self := { s.self with code := code } }

/-! ### Sending a file -/

/-- The loop that writes a piece: the bytes that the server gets and the number of writes so far. -/
def writePiece (writes : ℕ → ℕ) : ℕ → ℕ → Bytes → Bytes × ℕ
  | 0, k, _ => ([], k)
  | fuel + 1, k, bufp =>
    if bufp = [] then ([], k)
    else
      let d := min (writes k) bufp.length
      if d = 0 then ([], k + 1)
      else
        let more := writePiece writes fuel (k + 1) (bufp.drop d)
        (bufp.take d ++ more.1, more.2)

/-- The loop over the file in pieces of `BUFSIZ`. -/
def sendPieces (writes : ℕ → ℕ) : ℕ → ℕ → Bytes → Bytes
  | 0, _, _ => []
  | fuel + 1, k, file =>
    if file = [] then []
    else
      let piece := file.take 8192
      let sent := writePiece writes piece.length k piece
      sent.1 ++ sendPieces writes fuel sent.2 (file.drop 8192)

/-- `sendrequest`, with what the server gets over the data connection. -/
def sendrequest (w : World) (cmd : Cmd) (loc : Name) (files : Files) (s : Ftp) :
    Bytes × Option (ℤ × Ftp) :=
  match files loc with
  | none => ([], some (0, s))
  | some file =>
    match initconn w s with
    | none => ([], none)
    | some (false, s) => ([], some (0, setCode s (-1)))
    | some (true, s) =>
      match command s cmd with
      | none => ([], none)
      | some (rc, s) =>
        if rc ≠ 1 then ([], some (0, s))
        else (sendPieces w.writes file.length 0 file, (reply s).map fun (_, s) ↦ (1, s))

/-! ### Receiving a file -/

/-- The loop that writes what is read behind what the file holds. -/
def copyPieces : List (Bytes × ℕ) → Bytes → Bytes
  | [], out => out
  | (piece, room) :: rest, out =>
    if piece = [] then out
    else if room < piece.length then out ++ piece.take room
    else copyPieces rest (out ++ piece)

/-- `recvrequest` up to the reply to the command: whether the transfer begins. -/
def openTransfer (w : World) (cmd : Cmd) (s : Ftp) : Option (Bool × Ftp) :=
  (initconn w s).bind fun (ok, s) ↦
    if ok then
      let isRetr : Bool := match cmd with
        | .retr _ => true
        | _ => false
      if isRetr ∧ s.restartPoint ≠ 0 then
        (command s (.rest s.restartPoint)).bind fun (rc, s) ↦
          if rc ≠ 3 then some (false, s)
          else (command s cmd).map fun (rc, s) ↦ (rc == 1, s)
      else (command s cmd).map fun (rc, s) ↦ (rc == 1, s)
    else some (false, setCode s (-1))

/-- `recvrequest` -/
def recvrequest (w : World) (cmd : Cmd) (loc : Name) (append : Bool) (files : Files) (s : Ftp) :
    Files × Option Ftp :=
  match openTransfer w cmd s with
  | none => (files, none)
  | some (false, s) => (files, some s)
  | some (true, s) =>
    -- a `-` stands for standard output
    if loc = [45] then (files, (reply s).map Prod.snd)
    -- for a name that begins with a `|` nothing is opened
    else if loc.head? = some 124 ∨ ¬w.creates then (files, none)
    else
      let old := if append then (files loc).getD [] else []
      (Function.update files loc (some (copyPieces (w.pieces s.cmds) old)),
        (reply s).map Prod.snd)

/-- `getit` -/
def getit (w : World) (restartit : Bool) (append : Bool) (rm lc : Name) (files : Files) (s : Ftp) :
    Files × Option Ftp :=
  let size := if restartit then (files lc).elim 0 List.length else 0
  recvrequest w (.retr rm) lc append files { s with restartPoint := size }

/-- `ftpclient_reget` -/
def ftpclientReget (w : World) (rm lc : Name) (files : Files) (s : Ftp) : Files × Option Ftp :=
  getit w true true rm lc files s

/-- `ftpclient_get` -/
def ftpclientGet (w : World) (rm lc : Name) (files : Files) (s : Ftp) : Files × Option Ftp :=
  getit w false false rm lc files s

/-- `ftpclient_put`, with what the server gets. -/
def ftpclientPut (w : World) (rm lc : Name) (files : Files) (s : Ftp) : Bytes × Option Ftp :=
  let sent := sendrequest w (.stor rm) lc files s
  (sent.1, sent.2.map Prod.snd)

/-- `ftpclient_dir` -/
def ftpclientDir (w : World) (path : Option Name) (files : Files) (s : Ftp) : Files × Option Ftp :=
  recvrequest w (.list path) [45] false files s

/-! ### Sessions -/

inductive Call where
  | get (rm lc : Name)
  | reget (rm lc : Name)
  | put (rm lc : Name)
  | dir (path : Option Name)
  deriving DecidableEq

/-- What a call leaves. -/
def call (w : World) (files : Files) (s : Ftp) : Call → Files × Option Ftp
  | .get rm lc => ftpclientGet w rm lc files s
  | .reget rm lc => ftpclientReget w rm lc files s
  | .put rm lc => (files, (ftpclientPut w rm lc files s).2)
  | .dir path => ftpclientDir w path files s

/-- The files after calls on one control connection; without a client there are no more calls. -/
def runCalls : List (Call × World) → Files → Option Ftp → Files
  | (c, w) :: rest, files, some s => runCalls rest (call w files s c).1 (call w files s c).2
  | _, files, _ => files

/-- A control connection and the calls that are made on it. -/
structure Session where
  start : Ftp
  calls : List (Call × World)

/-- The files after sessions one after another. -/
def runSessions : List Session → Files → Files
  | [], files => files
  | session :: rest, files =>
    runSessions rest (runCalls session.calls files (some session.start))

end Katmai.Ftpclient
