import Katmai.FileServer.Datagram
import Katmai.Foundation.ByteDialogue
import Mathlib.Data.List.Infix

/-!
# File exchange

`mini_filexchg` copies files over one connection: `mfc_ftpput` and `mfc_ftpget` on the client,
`fchg_server` with `for_upload` and `for_download` on the server. Each is a program over the bytes
of the connection. Buffers are memories of bytes, also where a short `read` leaves the old bytes in
place, and start with whatever was there. The bytes of names, signatures and files come and go in
pieces of any size. Integers of four bytes are little-endian and arrive whole, as does the digest
where it is read at once; a `read` on a connection whose peer is done returns what is left.

The digest of `md5sum` is a parameter. A negative name length, for which the source writes before
the start of its buffer, is taken as zero.
-/

set_option autoImplicit false
set_option relaxedAutoImplicit false

namespace Katmai.MiniFilexchg

open Katmai.FileServer Katmai.Foundation

/-- A digest of 16 bytes, in the place of `md5sum`. -/
structure Digest where
  sum : List UInt8 → List UInt8
  length_sum : ∀ bytes, (sum bytes).length = 16

/-- The strings that a `mini_filexchg_t` is set up with. -/
structure Config where
  exportdir : Option (List UInt8)
  uploaddir : Option (List UInt8)
  request : Option (List UInt8)
  response : Option (List UInt8)

/-- A file as the server finds it: the size that `fstat` tells, and what the calls of `read` return
until one returns nothing. The two need not agree, as the file may change in between. -/
structure ServedFile where
  size : ℕ
  reads : List (List UInt8)
  reads_bounds : ∀ bytes ∈ reads, bytes ≠ [] ∧ bytes.length ≤ 1280

/-- The system of the server: the error number with which a file is opened for writing (zero when it
is opened), the files that can be read, the bytes of the two structures of `gettimeofday`, and what
is in the variable `filesize` before anything is read into it. -/
structure System where
  openErrno : List UInt8 → ℤ
  served : List UInt8 → Option ServedFile
  clock : List UInt8 × List UInt8
  filesize : ℕ → UInt8

/-! ### Memory -/

/-- Bytes come into a buffer at an offset. -/
def fill (buffer : ℕ → UInt8) (offset : ℕ) (bytes : List UInt8) : ℕ → UInt8 :=
  fun j ↦ if offset ≤ j then (bytes[j - offset]?).getD (buffer j) else buffer j

/-- The bytes of an `int`. -/
def intBytes (value : ℤ) : List UInt8 :=
  firstBytes (putInt (fun _ ↦ 0) 0 value) 4

/-- The string in a buffer with a zero byte at `len`. -/
def cString (buffer : ℕ → UInt8) (len : ℕ) : List UInt8 :=
  (firstBytes buffer len).takeWhile (· ≠ 0)

/-- `strstr (string, "..") != NULL` -/
def hasDotDot (string : List UInt8) : Bool :=
  decide ([46, 46] <:+: string)

/-! ### The loops around `read` and `write` -/

section Loops

variable {ρ : Type}

/-- `read (fd, buffer, sizeof (int))`, with the `break` when nothing comes. `next` gets the buffer
and what `read` has returned. -/
def readInt (buffer : ℕ → UInt8) (failed : Prog UInt8 ρ)
    (next : (ℕ → UInt8) → ℕ → Prog UInt8 ρ) : Prog UInt8 ρ :=
  .recvWhole 4 fun bytes ↦
    if bytes = [] then failed else next (fill buffer 0 bytes) bytes.length

/-- `while (explen > 0) len = read (fd, &buffer[rdlen], explen)`. -/
def readLoop (buffer : ℕ → UInt8) (rdlen explen : ℕ) (failed : Prog UInt8 ρ)
    (next : (ℕ → UInt8) → Prog UInt8 ρ) : Prog UInt8 ρ :=
  if explen = 0 then next buffer
  else .recvSome explen fun bytes ↦
    if bytes = [] then failed
    else readLoop (fill buffer rdlen bytes) (rdlen + bytes.length) (explen - bytes.length) failed
      next
termination_by explen
decreasing_by
  have := List.length_pos_iff.mpr ‹¬bytes = []›
  omega

/-- `while (explen > 0) len = write (fd, &buffer[rdlen], explen)`. -/
def writeLoop (bytes : List UInt8) (next : Prog UInt8 ρ) : Prog UInt8 ρ :=
  if bytes = [] then next
  else .sendSome bytes fun k ↦ writeLoop (bytes.drop (k + 1)) next
termination_by bytes.length
decreasing_by
  have := k.isLt
  rw [List.length_drop]
  omega

/-- The same loop on a file, which has `stored` so far. -/
def storeLoop (bytes stored : List UInt8) (next : List UInt8 → Prog UInt8 ρ) : Prog UInt8 ρ :=
  if bytes = [] then next stored
  else .choose bytes.length fun k ↦
    storeLoop (bytes.drop (k + 1)) (stored ++ bytes.take (k + 1)) next
termination_by bytes.length
decreasing_by
  have := k.isLt
  rw [List.length_drop]
  omega

end Loops

/-! ### The client -/

/-- `mfc_ftpput` and `mfc_ftpget`: the response is compared. -/
def readResponse {ρ : Type} (self : Config) (buffer : ℕ → UInt8) (failed : Prog UInt8 ρ)
    (next : (ℕ → UInt8) → Prog UInt8 ρ) : Prog UInt8 ρ :=
  match self.response with
  | none => next buffer
  | some response =>
    readLoop buffer 0 response.length failed fun buffer ↦
      if firstBytes buffer response.length = response then next buffer else failed

/-- `mfc_ftpput` and `mfc_ftpget`: the request is sent and the response is awaited. -/
def signIn {ρ : Type} (self : Config) (buffer : ℕ → UInt8) (failed : Prog UInt8 ρ)
    (next : (ℕ → UInt8) → Prog UInt8 ρ) : Prog UInt8 ρ :=
  match self.request with
  | none => readResponse self buffer failed next
  | some request => .send request (readResponse self buffer failed next)

section Upload

variable (md5 : Digest)

/-- `mfc_ftpput`: the file is read in pieces of up to 1280 bytes, and each is written out. -/
def sendLocal (file hashed : List UInt8) (buffer : ℕ → UInt8)
    (next : (ℕ → UInt8) → List UInt8 → Prog UInt8 ℤ) : Prog UInt8 ℤ :=
  if file = [] then next buffer hashed
  else .choose (min 1280 file.length) fun k ↦
    let bytes := file.take (k + 1)
    writeLoop bytes (sendLocal (file.drop (k + 1)) (hashed ++ bytes) (fill buffer 0 bytes) next)
termination_by file.length
decreasing_by
  have := k.isLt
  rw [List.length_drop]
  omega

/-- `mfc_ftpput`, after the file: the digest of the server is compared and the verdict is sent. -/
def putVerdict (buffer : ℕ → UInt8) (hashed : List UInt8) : Prog UInt8 ℤ :=
  .recvWhole 16 fun bytes ↦
    let buffer := fill buffer 0 bytes
    if md5.sum hashed = firstBytes buffer 16 then
      .send (firstBytes (putInt buffer 0 1) 4) (.ret 1)
    else .send (firstBytes (putInt buffer 0 0) 4) (.ret 0)

/-- `mfc_ftpput`, after the name: the server says whether it has the file open. -/
def putFile (file : List UInt8) (buffer : ℕ → UInt8) : Prog UInt8 ℤ :=
  readInt buffer (.ret 0) fun buffer _ ↦
    if getInt buffer 0 ≠ 0 then .ret 0
    else
      -- send file size
      let buffer := putInt buffer 0 file.length
      .send (firstBytes buffer 4) (sendLocal file [] buffer (putVerdict md5))

/-- `mfc_ftpput`, after the offer. The length of the name that is sent is what `read` has returned
last. -/
def putName (rmfile file : List UInt8) (buffer : ℕ → UInt8) : Prog UInt8 ℤ :=
  readInt buffer (.ret 0) fun buffer len ↦
    if getInt buffer 0 = 0 then .ret 0
    else
      let buffer := putInt buffer 0 len
      .send (firstBytes buffer 4) (.send rmfile (putFile md5 file buffer))

/-- `mfc_ftpput` for a local file with the bytes `file`: what it returns. -/
def mfcFtpput (self : Config) (rmfile file : List UInt8) (buffer : ℕ → UInt8) : Prog UInt8 ℤ :=
  if rmfile = [] then .ret 0
  else if file = [] then .ret 0
  else signIn self buffer (.ret 0) fun buffer ↦
    -- say I wanna upload
    let buffer := putInt buffer 0 1
    .send (firstBytes buffer 4) (putName md5 rmfile file buffer)

end Upload

section Download

variable (md5 : Digest)

/-- `mfc_ftpget`: up to 1280 bytes are read while `filelen` says that some are missing. -/
def fetchLoop (filelen : ℕ) (stored hashed : List UInt8) (buffer : ℕ → UInt8)
    (failed : List UInt8 → Prog UInt8 (ℤ × List UInt8))
    (next : (ℕ → UInt8) → List UInt8 → List UInt8 → Prog UInt8 (ℤ × List UInt8)) :
    Prog UInt8 (ℤ × List UInt8) :=
  if filelen = 0 then next buffer stored hashed
  else .recvSome 1280 fun bytes ↦
    if bytes = [] then failed stored
    else fetchLoop (filelen - bytes.length) (stored ++ bytes) (hashed ++ bytes)
      (fill buffer 0 bytes) failed next
termination_by filelen
decreasing_by
  have := List.length_pos_iff.mpr ‹¬bytes = []›
  omega

/-- `mfc_ftpget`, after the file: the digest is sent and the verdict of the server is read. -/
def getVerdict (buffer : ℕ → UInt8) (stored hashed : List UInt8) : Prog UInt8 (ℤ × List UInt8) :=
  .send (md5.sum hashed) <|
    readInt buffer (.ret (0, stored)) fun buffer _ ↦
      if getInt buffer 0 = 1 then .ret (1, stored) else .ret (0, stored)

/-- `mfc_ftpget`, after the name: the size and the bytes of the file are read. -/
def getFile (buffer : ℕ → UInt8) : Prog UInt8 (ℤ × List UInt8) :=
  readInt buffer (.ret (0, [])) fun buffer _ ↦
    if getInt buffer 0 ≤ 0 then .ret (0, [])
    else fetchLoop (getInt buffer 0).toNat [] [] buffer (fun stored ↦ .ret (0, stored))
      (getVerdict md5)

/-- `mfc_ftpget`: what it returns and what is in the local file then. -/
def mfcFtpget (self : Config) (rmfile : List UInt8) (buffer : ℕ → UInt8) :
    Prog UInt8 (ℤ × List UInt8) :=
  if rmfile = [] then .ret (0, [])
  else signIn self buffer (.ret (0, [])) fun buffer ↦
    let buffer := putInt buffer 0 0
    .send (firstBytes buffer 4) <| .send (intBytes rmfile.length) <| .send rmfile <|
      getFile md5 buffer

end Download

/-! ### The server -/

/-- What a server has at the end: the name and the bytes of the file that it has opened for writing.
-/
abbrev Stored : Type :=
  Option (List UInt8 × List UInt8)

section Server

variable (self : Config) (system : System) (md5 : Digest)

/-- `for_upload` and `for_download`: the name is read. -/
def readName {ρ : Type} (buffer : ℕ → UInt8) (failed : Prog UInt8 ρ)
    (next : (ℕ → UInt8) → List UInt8 → Prog UInt8 ρ) : Prog UInt8 ρ :=
  readInt buffer failed fun buffer _ ↦
    let filenameLen := getInt buffer 0
    if filenameLen > 1000 then failed
    else readLoop buffer 0 filenameLen.toNat failed fun buffer ↦
      next (Function.update buffer filenameLen.toNat 0) (cString buffer filenameLen.toNat)

/-- `for_upload`: up to `total_len` bytes are read and written to the file. -/
def receiveLoop (totalLen : ℕ) (stored hashed : List UInt8) (buffer : ℕ → UInt8)
    (failed : List UInt8 → Prog UInt8 Stored)
    (next : (ℕ → UInt8) → List UInt8 → List UInt8 → Prog UInt8 Stored) : Prog UInt8 Stored :=
  if totalLen = 0 then next buffer stored hashed
  else .recvSome (if totalLen > 1280 then 1280 else totalLen) fun bytes ↦
    if bytes = [] then failed stored
    else storeLoop bytes stored fun stored ↦
      receiveLoop (totalLen - bytes.length) stored (hashed ++ bytes) (fill buffer 0 bytes) failed
        next
termination_by totalLen
decreasing_by
  have := List.length_pos_iff.mpr ‹¬bytes = []›
  omega

/-- `for_upload`, after the file is open. -/
def receiveFile (filename : List UInt8) (buffer : ℕ → UInt8) : Prog UInt8 Stored :=
  .recvWhole 4 fun bytes ↦
    let filesize := getInt (fill system.filesize 0 bytes) 0
    if filesize ≤ 0 then .ret (some (filename, []))
    else receiveLoop filesize.toNat [] [] buffer (fun stored ↦ .ret (some (filename, stored)))
      fun _ stored hashed ↦
        .send (md5.sum hashed) <| .recvWhole 4 fun _ ↦ .ret (some (filename, stored))

/-- `for_upload`, after the name: the file is opened. -/
def openUpload (buffer : ℕ → UInt8) (name : List UInt8) : Prog UInt8 Stored :=
  if hasDotDot name then .send (firstBytes (putInt buffer 0 (-1)) 4) (.ret none)
  else
    match self.uploaddir with
    | none => .ret none
    | some uploaddir =>
      let filename := uploaddir ++ 47 :: name
      if system.openErrno filename ≠ 0 then
        .send (firstBytes (putInt buffer 0 (system.openErrno filename)) 4) (.ret none)
      else
        let buffer := putInt buffer 0 0
        .send (firstBytes buffer 4) (receiveFile system md5 filename buffer)

/-- `for_upload` -/
def forUpload (buffer : ℕ → UInt8) : Prog UInt8 Stored :=
  readName buffer (.ret none) (openUpload self system md5)

/-- `for_download`: each piece of the file that is read is written out. -/
def sendServed (next : (ℕ → UInt8) → List UInt8 → ℤ → Prog UInt8 Stored) :
    List (List UInt8) → List UInt8 → ℤ → (ℕ → UInt8) → Prog UInt8 Stored
  | [], hashed, totalLen, buffer => next buffer hashed totalLen
  | bytes :: reads, hashed, totalLen, buffer =>
    writeLoop bytes <| sendServed next reads (hashed ++ bytes)
      (Int.bmod (totalLen - bytes.length) (2 ^ 32)) (fill buffer 0 bytes)

/-- `for_download`, after the file: the digest of the client is compared and the verdict is sent. -/
def serveVerdict (buffer : ℕ → UInt8) (hashed : List UInt8) (totalLen : ℤ) : Prog UInt8 Stored :=
  if totalLen ≠ 0 then .ret none
  else readLoop buffer 0 16 (.ret none) fun buffer ↦
    let verdict := if md5.sum hashed = firstBytes buffer 16 then 1 else 0
    .send (firstBytes (putInt buffer 0 verdict) 4) (.ret none)

/-- `for_download`, after the name: the file is opened and its size is sent. -/
def openDownload (buffer : ℕ → UInt8) (name : List UInt8) : Prog UInt8 Stored :=
  if hasDotDot name then .send (firstBytes (putInt buffer 0 (-1)) 4) (.ret none)
  else
    let filename := self.exportdir.elim name fun exportdir ↦ exportdir ++ 47 :: name
    match system.served filename with
    | none => .send (firstBytes (putInt buffer 0 (-1)) 4) (.ret none)
    | some file =>
      let buffer := putInt buffer 0 file.size
      .send (firstBytes buffer 4) <|
        if file.size = 0 then .ret none
        else sendServed (serveVerdict md5) file.reads [] (getInt buffer 0) buffer

/-- `for_download` -/
def forDownload (buffer : ℕ → UInt8) : Prog UInt8 Stored :=
  readName buffer (.ret none) (openDownload self system md5)

/-- `for_gettimeofday` -/
def forGettimeofday : Prog UInt8 Stored :=
  .send system.clock.1 <| .send system.clock.2 <|
    .send (md5.sum (system.clock.1 ++ system.clock.2)) (.ret none)

/-- `fchg_server`, after the signatures: the client says what it wants. -/
def serveCommand (buffer : ℕ → UInt8) : Prog UInt8 Stored :=
  readInt buffer (.ret none) fun sel _ ↦
    if getInt sel 0 = 0 then forDownload self system md5 buffer
    else if getInt sel 0 = 1 then
      if self.uploaddir = none then .send (intBytes 0) (.ret none)
      else .send (intBytes 1) (forUpload self system md5 buffer)
    else if getInt sel 0 = 2 then forGettimeofday system md5
    else .ret none

/-- `fchg_server`, after the request: the response is sent. -/
def writeResponse (buffer : ℕ → UInt8) : Prog UInt8 Stored :=
  match self.response with
  | none => serveCommand self system md5 buffer
  | some response => .send response (serveCommand self system md5 buffer)

/-- `fchg_server` -/
def fchgServer (buffer : ℕ → UInt8) : Prog UInt8 Stored :=
  match self.request with
  | none => writeResponse self system md5 buffer
  | some request =>
    readLoop buffer 0 request.length (.ret none) fun signature ↦
      if firstBytes signature request.length = request then writeResponse self system md5 buffer
      else .ret none

end Server

/-! ### What a transfer is given -/

/-- A signature: a string that the buffer of 1280 bytes holds. -/
structure Signature where
  bytes : List UInt8
  nonzero : 0 ∉ bytes
  length_le : bytes.length ≤ 1280

/-- The name of a remote file: up to 1000 characters without `..`. -/
structure RemoteName where
  bytes : List UInt8
  nonempty : bytes ≠ []
  nonzero : 0 ∉ bytes
  length_le : bytes.length ≤ 1000
  no_dotDot : ¬[46, 46] <:+: bytes

/-- A client and a server that know the same signatures. -/
def peers (exportdir uploaddir : Option (List UInt8)) (request response : Option Signature) :
    Config :=
  ⟨exportdir, uploaddir, request.map Signature.bytes, response.map Signature.bytes⟩

/-- The digest of the file `a`. -/
def sampleDigest : Digest where
  sum bytes :=
    if bytes = [97] then
      [0x0c, 0xc1, 0x75, 0xb9, 0xc0, 0xf1, 0xb6, 0xa8, 0x31, 0xc3, 0x99, 0xe2, 0x69, 0x77, 0x26,
        0x61]
    else List.replicate 16 0
  length_sum bytes := by split_ifs <;> rfl

/-- The name `note`. -/
def note : RemoteName where
  bytes := [110, 111, 116, 101]
  nonempty := nofun
  nonzero := by decide
  length_le := by decide
  no_dotDot := by decide

end Katmai.MiniFilexchg
