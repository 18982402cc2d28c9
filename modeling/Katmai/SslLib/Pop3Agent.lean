import Katmai.Foundation.TextLines

/-!
# POP3-Agent: what it sees of its client

`do_service` reads the client in two phases. As long as it has no user name, every `read` is taken
for a command (`userPhase`): it is compared at the start of the buffer, answered, or searched for
the name. Afterwards the server is sent `USER name`, and whatever is read is passed on
(`doService`). The buffer is not terminated behind a read and keeps what was there before
(`Buffer.fill`); a scan that leaves it is `none`.
-/

set_option autoImplicit false
set_option relaxedAutoImplicit false

namespace Katmai.SslLib

open Foundation

/-! ### The buffer -/

/-- `sizeof buf` -/
def bufSize : ℕ := 65536

/-- `buf` -/
structure Buffer where
  bytes : List Char
  size : bytes.length = bufSize

/-- What a `read` returns that does not return `0`. -/
structure Chunk where
  bytes : List Char
  ne_nil : bytes ≠ []
  length_le : bytes.length ≤ bufSize

/-- The buffer behind a `read`. -/
def Buffer.fill (buf : Buffer) (chunk : Chunk) : Buffer where
  bytes := chunk.bytes ++ buf.bytes.drop chunk.bytes.length
  size := by
    have hle := chunk.length_le
    rw [List.length_append, List.length_drop, buf.size]
    omega

/-! ### The scans -/

/-- `strncasecmp (buf, word, strlen (word)) == 0` -/
def startsWith (buf word : List Char) : Bool :=
  (buf.take word.length).map Char.toLower == word

/-- `strlen (buf)` -/
def strlen (buf : List Char) : Option ℕ :=
  buf.findIdx? (· == '\x00')

/-- `for (j = 4; j < len; j++) if (buf[j] != ' ') break;`: what stands from `j` on. -/
def skipBlanks : ℕ → List Char → List Char
  | 0, rest => rest
  | n + 1, ' ' :: rest => skipBlanks n rest
  | _ + 1, rest => rest

/-- The characters at which the name ends. -/
def endsName (c : Char) : Bool :=
  c == '\r' || c == '\n' || c == ' ' || c == '@'

/-- The loop over the `n` characters that `user` has still room for. -/
def copyName : ℕ → List Char → Option (List Char)
  | 0, _ => some []
  | _ + 1, [] => none
  | n + 1, c :: rest => if endsName c then some [] else (copyName n rest).map (c :: ·)

/-- `user`, of which `sizeof user - 1` characters are filled. -/
def scanUser (buf : List Char) : Option (List Char) := do
  let len ← strlen buf
  let name ← copyName 17 (skipBlanks (len - 4) (buf.drop 4))
  some (cString name)

/-! ### The session -/

def pop3hello : List Char :=
  "+OK POP3-Agent ready, Written by Jiann-Ching Liu\r\n".toList

def pop3err : List Char := "-ERR\r\n".toList

def pop3bye : List Char := "+OK see you later.\r\n".toList

/-- What a session does with the bytes of the client: the answers of the agent, the name that was
found, and what the server is sent. -/
structure View where
  answers : List (List Char)
  user : Option (List Char)
  forwarded : List Char
  deriving DecidableEq

/-- `sprintf (buf, "USER %s\r\n", user)` -/
def userCommand (user : List Char) : List Char :=
  "USER ".toList ++ user ++ "\r\n".toList

/-- The relay phase: each chunk is passed on. `connects` says whether an entry is found for the name
and its server takes the connection; otherwise the session ends. -/
def relay (connects : List Char → Bool) (user : List Char) (chunks : List Chunk) : View where
  answers := []
  user := some user
  forwarded :=
    if connects user then userCommand user ++ (chunks.map Chunk.bytes).flatten else []

/-- The loop of the first phase, on the chunks that are still to come. -/
def userPhase (connects : List Char → Bool) : Buffer → List Chunk → Option View
  | _, [] => some { answers := [], user := none, forwarded := [] }
  | buf, chunk :: rest =>
    let buf := buf.fill chunk
    if startsWith buf.bytes "user ".toList then
      (scanUser buf.bytes).map fun user ↦ relay connects user rest
    else if startsWith buf.bytes "quit".toList then
      some { answers := [pop3bye], user := none, forwarded := [] }
    else
      (userPhase connects buf rest).map fun view ↦
        { view with answers := pop3err :: view.answers }

/-- `do_service`, on what the `read`s return until one returns `0`. -/
def doService (connects : List Char → Bool) (buf : Buffer) (chunks : List Chunk) : Option View :=
  (userPhase connects buf chunks).map fun view ↦
    { view with answers := pop3hello :: view.answers }

end Katmai.SslLib
