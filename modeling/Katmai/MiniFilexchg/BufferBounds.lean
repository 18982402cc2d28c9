import Katmai.Foundation.TracedProg
import Katmai.MiniFilexchg.ConnectionLoops

/-!
# The buffer of `for_download` and `for_upload`

Both functions work in one buffer of 1280 bytes. Here they are again with every access to it: what a
`read` may fill and a `write` may take, the integer at its start, the strings and digests in it, and
the zero byte behind the name. Writes may fail. Without the accesses they are the programs of the
exchange (`erase_forDownload`, `erase_forUpload`).

The length of the name is checked from above only. A negative one asks for no bytes, so that the
zero byte is stored in front of the buffer at once. `accesses_within_iff` says that a run stays in
the buffer exactly when it gets no name length, or one that is not negative. What follows a store
outside of the buffer is not defined; it is taken as if the length were zero.
-/

set_option autoImplicit false
set_option relaxedAutoImplicit false

namespace Katmai.MiniFilexchg

open Katmai.FileServer Katmai.Foundation

/-- An access to the buffer, at an offset with a length. -/
structure Access where
  offset : ℤ
  len : ℤ
  deriving DecidableEq, Repr

/-- The length is not negative, and the indices are within `BEST_BUFFER_SIZE`. -/
structure Access.Within (access : Access) : Prop where
  len_nonneg : 0 ≤ access.len
  offset_nonneg : 0 ≤ access.offset
  end_le : access.offset + access.len ≤ 1280

namespace Accesses

/-! ### The functions -/

section Loops

variable {ρ : Type}

/-- `read (fd, buffer, sizeof (int))` with the `break` when nothing comes, and `*intptr`. -/
def readInt (buffer : ℕ → UInt8) (failed : TracedProg Access UInt8 ρ)
    (next : (ℕ → UInt8) → TracedProg Access UInt8 ρ) : TracedProg Access UInt8 ρ :=
  .touch ⟨0, 4⟩ <| .recv true 4 fun bytes ↦
    if bytes = [] then failed else .touch ⟨0, 4⟩ (next (fill buffer 0 bytes))

/-- `*intptr = value`, and `write (fd, buffer, sizeof (int))`. -/
def writeInt (buffer : ℕ → UInt8) (value : ℤ) (next : TracedProg Access UInt8 ρ) :
    TracedProg Access UInt8 ρ :=
  .touch ⟨0, 4⟩ <| .touch ⟨0, 4⟩ <| .send (firstBytes (putInt buffer 0 value) 4) next

/-- `while (explen > 0) len = read (fd, &buffer[rdlen], explen)`. -/
def readLoop (buffer : ℕ → UInt8) (rdlen explen : ℤ) (failed : TracedProg Access UInt8 ρ)
    (next : (ℕ → UInt8) → TracedProg Access UInt8 ρ) : TracedProg Access UInt8 ρ :=
  if explen ≤ 0 then next buffer
  else .touch ⟨rdlen, explen⟩ <| .recv false explen.toNat fun bytes ↦
    if bytes = [] then failed
    else readLoop (fill buffer rdlen.toNat bytes) (rdlen + bytes.length) (explen - bytes.length)
      failed next
termination_by explen.toNat
decreasing_by
  have := List.length_pos_iff.mpr ‹¬bytes = []›
  omega

/-- `while (explen > 0) len = write (fd, &buffer[rdlen], explen)`, for `bytes` in the buffer. -/
def writeLoop (bytes : List UInt8) (rdlen : ℤ) (failed next : TracedProg Access UInt8 ρ) :
    TracedProg Access UInt8 ρ :=
  if bytes = [] then next
  else .touch ⟨rdlen, bytes.length⟩ <| .sendSome bytes failed fun k ↦
    writeLoop (bytes.drop (k + 1)) (rdlen + (k + 1)) failed next
termination_by bytes.length
decreasing_by
  have := k.isLt
  rw [List.length_drop]
  omega

/-- The same loop on a file, which has `stored` so far. -/
def storeLoop (bytes : List UInt8) (rdlen : ℤ) (stored : List UInt8)
    (failed next : List UInt8 → TracedProg Access UInt8 ρ) : TracedProg Access UInt8 ρ :=
  if bytes = [] then next stored
  else .touch ⟨rdlen, bytes.length⟩ <| .choose bytes.length (failed stored) fun k ↦
    storeLoop (bytes.drop (k + 1)) (rdlen + (k + 1)) (stored ++ bytes.take (k + 1)) failed next
termination_by bytes.length
decreasing_by
  have := k.isLt
  rw [List.length_drop]
  omega

/-- `for_upload` and `for_download`: the name is read, and looked at as a string. -/
def readName (buffer : ℕ → UInt8) (failed : TracedProg Access UInt8 ρ)
    (next : (ℕ → UInt8) → List UInt8 → TracedProg Access UInt8 ρ) : TracedProg Access UInt8 ρ :=
  readInt buffer failed fun buffer ↦
    let filenameLen := getInt buffer 0
    if filenameLen > 1000 then failed
    else readLoop buffer 0 filenameLen failed fun buffer ↦
      .touch ⟨filenameLen, 1⟩ <|
        let name := cString buffer filenameLen.toNat
        .touch ⟨0, name.length + 1⟩ (next (Function.update buffer filenameLen.toNat 0) name)

end Loops

section Server

variable (self : Config) (system : System) (md5 : Digest)

/-- `for_upload`: up to `total_len` bytes are read, hashed and written to the file. -/
def receiveLoop (totalLen : ℤ) (stored hashed : List UInt8) (buffer : ℕ → UInt8)
    (failed : List UInt8 → TracedProg Access UInt8 Stored)
    (next : (ℕ → UInt8) → List UInt8 → List UInt8 → TracedProg Access UInt8 Stored) :
    TracedProg Access UInt8 Stored :=
  if totalLen ≤ 0 then next buffer stored hashed
  else
    let len := if totalLen > 1280 then 1280 else totalLen
    .touch ⟨0, len⟩ <| .recv false len.toNat fun bytes ↦
      if bytes = [] then failed stored
      else .touch ⟨0, bytes.length⟩ <|
        storeLoop bytes 0 stored
          -- after a failed write the loop is left
          (fun stored ↦
            if totalLen - bytes.length ≠ 0 then failed stored
            else next (fill buffer 0 bytes) stored (hashed ++ bytes))
          fun stored ↦
            receiveLoop (totalLen - bytes.length) stored (hashed ++ bytes) (fill buffer 0 bytes)
              failed next
termination_by totalLen.toNat
decreasing_by
  have := List.length_pos_iff.mpr ‹¬bytes = []›
  omega

/-- `for_upload`, after the file is open. -/
def receiveFile (filename : List UInt8) (buffer : ℕ → UInt8) : TracedProg Access UInt8 Stored :=
  .recv true 4 fun bytes ↦
    let filesize := getInt (fill system.filesize 0 bytes) 0
    if filesize ≤ 0 then .ret (some (filename, []))
    else receiveLoop filesize [] [] buffer (fun stored ↦ .ret (some (filename, stored)))
      fun _ stored hashed ↦
        .send (md5.sum hashed) <| .touch ⟨0, 4⟩ <| .recv true 4 fun _ ↦
          .touch ⟨0, 4⟩ (.ret (some (filename, stored)))

/-- `for_upload`, after the name: the file is opened. -/
def openUpload (buffer : ℕ → UInt8) (name : List UInt8) : TracedProg Access UInt8 Stored :=
  if hasDotDot name then writeInt buffer (-1) (.ret none)
  else
    match self.uploaddir with
    | none => .ret none
    | some uploaddir =>
      let filename := uploaddir ++ 47 :: name
      .touch ⟨0, name.length + 1⟩ <|
        if system.openErrno filename ≠ 0 then
          writeInt buffer (system.openErrno filename) (.ret none)
        else writeInt buffer 0 (receiveFile system md5 filename (putInt buffer 0 0))

/-- `for_upload` -/
def forUpload (buffer : ℕ → UInt8) : TracedProg Access UInt8 Stored :=
  readName buffer (.ret none) (openUpload self system md5)

/-- `for_download`: each piece of the file that is read is hashed and written out. After a failed
write the loop is left. -/
def sendServed (next : (ℕ → UInt8) → List UInt8 → ℤ → TracedProg Access UInt8 Stored) :
    List (List UInt8) → List UInt8 → ℤ → (ℕ → UInt8) → TracedProg Access UInt8 Stored
  | [], hashed, totalLen, buffer => .touch ⟨0, 1280⟩ (next buffer hashed totalLen)
  | bytes :: reads, hashed, totalLen, buffer =>
    let hashed := hashed ++ bytes
    let totalLen := Int.bmod (totalLen - bytes.length) (2 ^ 32)
    let buffer := fill buffer 0 bytes
    .touch ⟨0, 1280⟩ <| .touch ⟨0, bytes.length⟩ <|
      writeLoop bytes 0 (next buffer hashed totalLen) (sendServed next reads hashed totalLen buffer)

/-- `for_download`, after the file: the digest of the client is compared and the verdict is sent. -/
def serveVerdict (buffer : ℕ → UInt8) (hashed : List UInt8) (totalLen : ℤ) :
    TracedProg Access UInt8 Stored :=
  if totalLen ≠ 0 then .ret none
  else readLoop buffer 0 16 (.ret none) fun buffer ↦
    .touch ⟨0, 16⟩ <|
      writeInt buffer (if md5.sum hashed = firstBytes buffer 16 then 1 else 0) (.ret none)

/-- `for_download`, after the name: the file is opened and its size is sent. -/
def openDownload (buffer : ℕ → UInt8) (name : List UInt8) : TracedProg Access UInt8 Stored :=
  if hasDotDot name then writeInt buffer (-1) (.ret none)
  else
    let filename := self.exportdir.elim name fun exportdir ↦ exportdir ++ 47 :: name
    .touch ⟨0, name.length + 1⟩ <|
      match system.served filename with
      | none => writeInt buffer (-1) (.ret none)
      | some file =>
        writeInt buffer file.size <|
          if file.size = 0 then .ret none
          else
            let buffer := putInt buffer 0 file.size
            sendServed (serveVerdict md5) file.reads [] (getInt buffer 0) buffer

/-- `for_download` -/
def forDownload (buffer : ℕ → UInt8) : TracedProg Access UInt8 Stored :=
  readName buffer (.ret none) (openDownload self system md5)

end Server

/-! ### Without the accesses -/

section Erase

open TracedProg

variable {ρ : Type}

theorem erase_readLoop (buffer : ℕ → UInt8) {rdlen : ℤ} (hrdlen : 0 ≤ rdlen) (explen : ℤ)
    (failed : TracedProg Access UInt8 ρ) (next : (ℕ → UInt8) → TracedProg Access UInt8 ρ) :
    (readLoop buffer rdlen explen failed next).erase =
      MiniFilexchg.readLoop buffer rdlen.toNat explen.toNat failed.erase
        fun buffer ↦ (next buffer).erase := by
  induction hn : explen.toNat using Nat.strongRecOn generalizing buffer rdlen explen with
  | ind n ih =>
    rw [readLoop, MiniFilexchg.readLoop]
    by_cases hdone : explen ≤ 0
    · rw [if_pos hdone, if_pos (by omega)]
    · rw [if_neg hdone, if_neg (by omega)]
      simp only [erase_touch, erase_recv_false, hn]
      congr 1
      funext bytes
      split_ifs with hbytes
      · rfl
      · have hsome := List.length_pos_iff.mpr hbytes
        have hlater := ih (n - bytes.length) (by omega) (fill buffer rdlen.toNat bytes)
          (Int.add_nonneg hrdlen (Int.natCast_nonneg bytes.length)) (explen - bytes.length)
          (by omega)
        rw [hlater]
        congr 1
        omega

theorem erase_writeLoop (bytes : List UInt8) (rdlen : ℤ) (failed next : TracedProg Access UInt8 ρ) :
    (writeLoop bytes rdlen failed next).erase = MiniFilexchg.writeLoop bytes next.erase := by
  induction hn : bytes.length using Nat.strongRecOn generalizing bytes rdlen with
  | ind n ih =>
    rw [writeLoop, MiniFilexchg.writeLoop]
    split_ifs with hbytes
    · rfl
    · rw [erase_touch, erase_sendSome]
      congr 1
      funext k
      have hlt := k.isLt
      exact ih _ (by rw [List.length_drop]; omega) _ _ rfl

theorem erase_storeLoop (bytes : List UInt8) (rdlen : ℤ) (stored : List UInt8)
    (failed next : List UInt8 → TracedProg Access UInt8 ρ) :
    (storeLoop bytes rdlen stored failed next).erase =
      MiniFilexchg.storeLoop bytes stored fun stored ↦ (next stored).erase := by
  induction hn : bytes.length using Nat.strongRecOn generalizing bytes rdlen stored with
  | ind n ih =>
    rw [storeLoop, MiniFilexchg.storeLoop]
    split_ifs with hbytes
    · rfl
    · rw [erase_touch, erase_choose]
      congr 1
      funext k
      have hlt := k.isLt
      exact ih _ (by rw [List.length_drop]; omega) _ _ _ rfl

theorem erase_readInt (buffer : ℕ → UInt8) (failed : TracedProg Access UInt8 ρ)
    (next : (ℕ → UInt8) → TracedProg Access UInt8 ρ) :
    (readInt buffer failed next).erase =
      MiniFilexchg.readInt buffer failed.erase fun buffer _ ↦ (next buffer).erase := by
  simp only [readInt, MiniFilexchg.readInt, erase_touch, erase_recv_true, erase_ite]

theorem erase_readName (buffer : ℕ → UInt8) (failed : TracedProg Access UInt8 ρ)
    (next : (ℕ → UInt8) → List UInt8 → TracedProg Access UInt8 ρ) :
    (readName buffer failed next).erase =
      MiniFilexchg.readName buffer failed.erase fun buffer name ↦ (next buffer name).erase := by
  rw [readName, erase_readInt]
  simp only [erase_ite, erase_readLoop _ (Int.le_refl 0), erase_touch, Int.toNat_zero]
  rfl

theorem erase_receiveLoop (totalLen : ℤ) (stored hashed : List UInt8) (buffer : ℕ → UInt8)
    (failed : List UInt8 → TracedProg Access UInt8 Stored)
    (next : (ℕ → UInt8) → List UInt8 → List UInt8 → TracedProg Access UInt8 Stored) :
    (receiveLoop totalLen stored hashed buffer failed next).erase =
      MiniFilexchg.receiveLoop totalLen.toNat stored hashed buffer
        (fun stored ↦ (failed stored).erase)
        fun buffer stored hashed ↦ (next buffer stored hashed).erase := by
  induction hn : totalLen.toNat using Nat.strongRecOn
    generalizing totalLen stored hashed buffer with
  | ind n ih =>
    rw [receiveLoop, MiniFilexchg.receiveLoop]
    by_cases hdone : totalLen ≤ 0
    · rw [if_pos hdone, if_pos (by omega)]
    · rw [if_neg hdone]
      have hlen : (if totalLen > 1280 then 1280 else totalLen).toNat =
          if n > 1280 then 1280 else n := by
        by_cases hlong : totalLen > 1280
        · rw [if_pos hlong, if_pos (by omega)]
          rfl
        · rw [if_neg hlong, if_neg (by omega), hn]
      have hsome : n ≠ 0 := by omega
      rw [if_neg hsome]
      simp only [erase_touch, erase_recv_false, hlen, erase_ite, erase_storeLoop]
      congr 1
      funext bytes
      by_cases hbytes : bytes = []
      · rw [if_pos hbytes, if_pos hbytes]
      · have hpos := List.length_pos_iff.mpr hbytes
        rw [if_neg hbytes, if_neg hbytes]
        congr 1
        funext stored
        exact ih (n - bytes.length) (by omega) _ _ _ _ (by omega)

theorem erase_writeInt (buffer : ℕ → UInt8) (value : ℤ) (next : TracedProg Access UInt8 ρ) :
    (writeInt buffer value next).erase =
      .send (firstBytes (putInt buffer 0 value) 4) next.erase :=
  rfl

theorem erase_receiveFile (system : System) (md5 : Digest) (filename : List UInt8)
    (buffer : ℕ → UInt8) :
    (receiveFile system md5 filename buffer).erase =
      MiniFilexchg.receiveFile system md5 filename buffer := by
  unfold receiveFile MiniFilexchg.receiveFile
  rw [erase_recv_true]
  refine congrArg (Prog.recvWhole 4) (funext fun bytes ↦ ?_)
  rw [erase_ite, erase_receiveLoop]
  rfl

theorem erase_openUpload (self : Config) (system : System) (md5 : Digest) (buffer : ℕ → UInt8)
    (name : List UInt8) :
    (openUpload self system md5 buffer name).erase =
      MiniFilexchg.openUpload self system md5 buffer name := by
  unfold openUpload MiniFilexchg.openUpload
  rw [erase_ite, erase_writeInt]
  cases self.uploaddir with
  | none => rfl
  | some uploaddir =>
    simp only [erase_touch, erase_ite, erase_writeInt, erase_ret, erase_receiveFile]

/-- Without its accesses this is the `for_upload` of the exchange. -/
theorem erase_forUpload (self : Config) (system : System) (md5 : Digest) (buffer : ℕ → UInt8) :
    (forUpload self system md5 buffer).erase = MiniFilexchg.forUpload self system md5 buffer := by
  simp only [forUpload, MiniFilexchg.forUpload, erase_readName, erase_openUpload, erase_ret]

theorem erase_sendServed
    (next : (ℕ → UInt8) → List UInt8 → ℤ → TracedProg Access UInt8 Stored)
    (reads : List (List UInt8)) (hashed : List UInt8) (totalLen : ℤ) (buffer : ℕ → UInt8) :
    (sendServed next reads hashed totalLen buffer).erase =
      MiniFilexchg.sendServed (fun buffer hashed totalLen ↦ (next buffer hashed totalLen).erase)
        reads hashed totalLen buffer := by
  induction reads generalizing hashed totalLen buffer with
  | nil => rfl
  | cons bytes reads ih =>
    simp only [sendServed, MiniFilexchg.sendServed, erase_touch, erase_writeLoop, ih]

theorem erase_serveVerdict (md5 : Digest) (buffer : ℕ → UInt8) (hashed : List UInt8)
    (totalLen : ℤ) :
    (serveVerdict md5 buffer hashed totalLen).erase =
      MiniFilexchg.serveVerdict md5 buffer hashed totalLen := by
  unfold serveVerdict MiniFilexchg.serveVerdict
  rw [erase_ite, erase_readLoop _ (Int.le_refl 0)]
  rfl

theorem erase_openDownload (self : Config) (system : System) (md5 : Digest) (buffer : ℕ → UInt8)
    (name : List UInt8) :
    (openDownload self system md5 buffer name).erase =
      MiniFilexchg.openDownload self system md5 buffer name := by
  unfold openDownload MiniFilexchg.openDownload
  rw [erase_ite, erase_writeInt]
  dsimp only [erase_touch]
  cases system.served (self.exportdir.elim name fun exportdir ↦ exportdir ++ 47 :: name) with
  | none => rfl
  | some file =>
    simp only [erase_writeInt, erase_ite, erase_ret, erase_sendServed, erase_serveVerdict]

/-- Without its accesses this is the `for_download` of the exchange. -/
theorem erase_forDownload (self : Config) (system : System) (md5 : Digest) (buffer : ℕ → UInt8) :
    (forDownload self system md5 buffer).erase =
      MiniFilexchg.forDownload self system md5 buffer := by
  simp only [forDownload, MiniFilexchg.forDownload, erase_readName, erase_openDownload, erase_ret]

end Erase

/-! ### The bounds -/

section Bounds

open TracedProg

variable {ρ : Type}

/-- An access at the start of the buffer. -/
theorem within_start {len : ℤ} (hpos : 0 ≤ len) (hle : len ≤ 1280) : (Access.mk 0 len).Within :=
  ⟨hpos, Int.le_refl 0, by rwa [Int.zero_add]⟩

theorem all_writeInt {buffer : ℕ → UInt8} {value : ℤ} {next : TracedProg Access UInt8 ρ}
    (hnext : next.All Access.Within) : (writeInt buffer value next).All Access.Within :=
  .touch (within_start (by decide) (by decide)) <|
    .touch (within_start (by decide) (by decide)) (.send hnext)

/-- A reading loop stays in the buffer when all it asks for does. -/
theorem all_readLoop {buffer : ℕ → UInt8} {rdlen explen : ℤ}
    {failed : TracedProg Access UInt8 ρ} {next : (ℕ → UInt8) → TracedProg Access UInt8 ρ}
    (hrdlen : 0 ≤ rdlen) (hend : rdlen + explen ≤ 1280) (hfailed : failed.All Access.Within)
    (hnext : ∀ buffer, (next buffer).All Access.Within) :
    (readLoop buffer rdlen explen failed next).All Access.Within := by
  induction hn : explen.toNat using Nat.strongRecOn generalizing buffer rdlen explen with
  | ind n ih =>
    rw [readLoop]
    by_cases hdone : explen ≤ 0
    · rw [if_pos hdone]
      exact hnext buffer
    · rw [if_neg hdone]
      have hpos : 0 ≤ explen := by omega
      refine .touch ⟨hpos, hrdlen, hend⟩ (.recv fun bytes hlength ↦ ?_)
      by_cases hbytes : bytes = []
      · rw [if_pos hbytes]
        exact hfailed
      · have hsome := List.length_pos_iff.mpr hbytes
        rw [if_neg hbytes]
        exact ih (explen - bytes.length).toNat (by omega) (by omega) (by omega) rfl

theorem all_writeLoop {bytes : List UInt8} {rdlen : ℤ} {failed next : TracedProg Access UInt8 ρ}
    (hrdlen : 0 ≤ rdlen) (hend : rdlen + bytes.length ≤ 1280) (hfailed : failed.All Access.Within)
    (hnext : next.All Access.Within) :
    (writeLoop bytes rdlen failed next).All Access.Within := by
  induction hn : bytes.length using Nat.strongRecOn generalizing bytes rdlen with
  | ind n ih =>
    rw [writeLoop]
    by_cases hbytes : bytes = []
    · rw [if_pos hbytes]
      exact hnext
    · rw [if_neg hbytes]
      refine .touch ⟨Int.natCast_nonneg _, hrdlen, hend⟩ (.sendSome hfailed fun k ↦ ?_)
      have hlt := k.isLt
      have hdrop : (bytes.drop (k + 1)).length = bytes.length - (k + 1) := List.length_drop
      exact ih _ (by omega) (by omega) (by omega) rfl

theorem all_storeLoop {bytes : List UInt8} {rdlen : ℤ} {stored : List UInt8}
    {failed next : List UInt8 → TracedProg Access UInt8 ρ} (hrdlen : 0 ≤ rdlen)
    (hend : rdlen + bytes.length ≤ 1280) (hfailed : ∀ stored, (failed stored).All Access.Within)
    (hnext : ∀ stored, (next stored).All Access.Within) :
    (storeLoop bytes rdlen stored failed next).All Access.Within := by
  induction hn : bytes.length using Nat.strongRecOn generalizing bytes rdlen stored with
  | ind n ih =>
    rw [storeLoop]
    by_cases hbytes : bytes = []
    · rw [if_pos hbytes]
      exact hnext stored
    · rw [if_neg hbytes]
      refine .touch ⟨Int.natCast_nonneg _, hrdlen, hend⟩ (.choose (hfailed stored) fun k ↦ ?_)
      have hlt := k.isLt
      have hdrop : (bytes.drop (k + 1)).length = bytes.length - (k + 1) := List.length_drop
      exact ih _ (by omega) (by omega) (by omega) rfl

theorem all_receiveLoop {totalLen : ℤ} {stored hashed : List UInt8} {buffer : ℕ → UInt8}
    {failed : List UInt8 → TracedProg Access UInt8 Stored}
    {next : (ℕ → UInt8) → List UInt8 → List UInt8 → TracedProg Access UInt8 Stored}
    (hfailed : ∀ stored, (failed stored).All Access.Within)
    (hnext : ∀ buffer stored hashed, (next buffer stored hashed).All Access.Within) :
    (receiveLoop totalLen stored hashed buffer failed next).All Access.Within := by
  induction hn : totalLen.toNat using Nat.strongRecOn
    generalizing totalLen stored hashed buffer with
  | ind n ih =>
    rw [receiveLoop]
    by_cases hdone : totalLen ≤ 0
    · rw [if_pos hdone]
      exact hnext buffer stored hashed
    rw [if_neg hdone]
    have hpos : 0 ≤ if totalLen > 1280 then 1280 else totalLen := by split_ifs <;> omega
    have hle : (if totalLen > 1280 then 1280 else totalLen) ≤ 1280 := by split_ifs <;> omega
    refine .touch (within_start hpos hle) (.recv fun bytes hlength ↦ ?_)
    by_cases hbytes : bytes = []
    · rw [if_pos hbytes]
      exact hfailed stored
    have hsome := List.length_pos_iff.mpr hbytes
    have hshort : (bytes.length : ℤ) ≤ 1280 := by omega
    rw [if_neg hbytes]
    refine .touch (within_start (by omega) hshort) ?_
    refine all_storeLoop (Int.le_refl 0) (by omega) (fun stored ↦ ?_) fun stored ↦
      ih (totalLen - bytes.length).toNat (by omega) rfl
    split_ifs with hmore
    · exact hfailed stored
    · exact hnext _ stored _

theorem all_receiveFile (system : System) (md5 : Digest) (filename : List UInt8)
    (buffer : ℕ → UInt8) : (receiveFile system md5 filename buffer).All Access.Within := by
  have hfirst : (Access.mk 0 4).Within := within_start (by decide) (by decide)
  unfold receiveFile
  refine .recv fun bytes _ ↦ ?_
  by_cases hempty : getInt (fill system.filesize 0 bytes) 0 ≤ 0
  · rw [if_pos hempty]
    exact .ret _
  · rw [if_neg hempty]
    refine all_receiveLoop (fun stored ↦ .ret _) fun _ stored hashed ↦ ?_
    exact .send (.touch hfirst (.recv fun _ _ ↦ .touch hfirst (.ret _)))

theorem all_openUpload (self : Config) (system : System) (md5 : Digest) (buffer : ℕ → UInt8)
    {name : List UInt8} (hname : name.length ≤ 1000) :
    (openUpload self system md5 buffer name).All Access.Within := by
  unfold openUpload
  split_ifs with hdots
  · exact all_writeInt (.ret _)
  cases self.uploaddir with
  | none => exact .ret _
  | some uploaddir =>
    refine .touch (within_start (by omega) (by omega)) ?_
    split_ifs with herrno
    · exact all_writeInt (.ret _)
    · refine all_writeInt ?_
      exact all_receiveFile system md5 (uploaddir ++ 47 :: name) (putInt buffer 0 0)

theorem all_sendServed {next : (ℕ → UInt8) → List UInt8 → ℤ → TracedProg Access UInt8 Stored}
    (hnext : ∀ buffer hashed totalLen, (next buffer hashed totalLen).All Access.Within)
    {reads : List (List UInt8)} (hreads : ∀ bytes ∈ reads, bytes.length ≤ 1280)
    (hashed : List UInt8) (totalLen : ℤ) (buffer : ℕ → UInt8) :
    (sendServed next reads hashed totalLen buffer).All Access.Within := by
  have hwhole : (Access.mk 0 1280).Within := within_start (by decide) (by decide)
  induction reads generalizing hashed totalLen buffer with
  | nil => exact .touch hwhole (hnext buffer hashed totalLen)
  | cons bytes reads ih =>
    obtain ⟨hbytes, hlater⟩ := List.forall_mem_cons.mp hreads
    refine .touch hwhole (.touch (within_start (by omega) (by omega)) ?_)
    exact all_writeLoop (Int.le_refl 0) (by omega) (hnext _ _ _) (ih hlater _ _ _)

theorem all_serveVerdict (md5 : Digest) (buffer : ℕ → UInt8) (hashed : List UInt8)
    (totalLen : ℤ) : (serveVerdict md5 buffer hashed totalLen).All Access.Within := by
  unfold serveVerdict
  split_ifs with htotal
  · exact .ret _
  · refine all_readLoop (Int.le_refl 0) (by decide) (.ret _) fun buffer ↦ ?_
    exact .touch (within_start (by decide) (by decide)) (all_writeInt (.ret _))

theorem all_openDownload (self : Config) (system : System) (md5 : Digest) (buffer : ℕ → UInt8)
    {name : List UInt8} (hname : name.length ≤ 1000) :
    (openDownload self system md5 buffer name).All Access.Within := by
  unfold openDownload
  split_ifs with hdots
  · exact all_writeInt (.ret _)
  refine .touch (within_start (by omega) (by omega)) ?_
  cases system.served (self.exportdir.elim name fun exportdir ↦ exportdir ++ 47 :: name) with
  | none => exact all_writeInt (.ret _)
  | some file =>
    refine all_writeInt ?_
    split_ifs with hsize
    · exact .ret _
    · exact all_sendServed (all_serveVerdict md5)
        (fun bytes hmem ↦ (file.reads_bounds bytes hmem).2) _ _ _

/-- The name that a client sends has at most as many bytes as it says. -/
theorem length_cString_le (buffer : ℕ → UInt8) (len : ℕ) : (cString buffer len).length ≤ len :=
  Nat.le_trans (List.takeWhile_prefix _).length_le (Nat.le_of_eq (length_firstBytes buffer len))

/-- With a name length that is not negative all accesses stay in the buffer. -/
theorem all_readName_rest {buffer : ℕ → UInt8} {result : ρ} {filenameLen : ℤ}
    (hnonneg : 0 ≤ filenameLen) (hle : filenameLen ≤ 1000)
    {next : (ℕ → UInt8) → List UInt8 → TracedProg Access UInt8 ρ}
    (hnext : ∀ buffer name, name.length ≤ 1000 → (next buffer name).All Access.Within) :
    (readLoop buffer 0 filenameLen (.ret result) fun buffer ↦
      .touch ⟨filenameLen, 1⟩ <| .touch ⟨0, (cString buffer filenameLen.toNat).length + 1⟩ <|
        next (Function.update buffer filenameLen.toNat 0)
          (cString buffer filenameLen.toNat)).All Access.Within := by
  have hend : 0 + filenameLen ≤ 1280 := by omega
  have hstore : filenameLen + 1 ≤ 1280 := by omega
  refine all_readLoop (Int.le_refl 0) hend (.ret _) fun buffer ↦ ?_
  have hname := length_cString_le buffer filenameLen.toNat
  refine .touch ⟨Int.zero_le_ofNat 1, hnonneg, hstore⟩ ?_
  exact .touch (within_start (by omega) (by omega)) (hnext _ _ (by omega))

/-- With a negative name length the loop asks for nothing, and the zero byte is stored. -/
theorem mem_log_readName {buffer : ℕ → UInt8} {failed : TracedProg Access UInt8 ρ}
    {next : (ℕ → UInt8) → List UInt8 → TracedProg Access UInt8 ρ} {bytes : List UInt8}
    {reads : List (List UInt8)} {counts : List ℕ} {filenameLen : ℤ} (htake : bytes.take 4 ≠ [])
    (hlen : getInt (fill buffer 0 (bytes.take 4)) 0 = filenameLen) (hneg : filenameLen < 0) :
    ⟨filenameLen, 1⟩ ∈ (readName buffer failed next).log (bytes :: reads) counts := by
  unfold readName readInt
  rw [log_touch, log_recv_cons, if_neg htake, log_touch]
  simp only [hlen]
  rw [if_neg (by omega), readLoop, if_pos (by omega), log_touch]
  exact List.mem_cons_of_mem _ (List.mem_cons_of_mem _ List.mem_cons_self)

/-- The accesses of a run stay in the buffer exactly when the first read returns nothing, or gives a
length that is not negative. -/
theorem within_log_readName_iff (buffer : ℕ → UInt8) (result : ρ)
    {next : (ℕ → UInt8) → List UInt8 → TracedProg Access UInt8 ρ}
    (hnext : ∀ buffer name, name.length ≤ 1000 → (next buffer name).All Access.Within)
    (reads : List (List UInt8)) (counts : List ℕ) :
    (∀ access ∈ (readName buffer (.ret result) next).log reads counts, access.Within) ↔
      ∀ bytes ∈ reads.head?, bytes ≠ [] → 0 ≤ getInt (fill buffer 0 (bytes.take 4)) 0 := by
  have hfirst : (Access.mk 0 4).Within := within_start (by decide) (by decide)
  cases reads with
  | nil =>
    refine iff_of_true (fun access hmem ↦ ?_) fun bytes hbytes ↦ absurd hbytes (by simp)
    unfold readName readInt at hmem
    rw [log_touch, log_recv_nil, List.mem_singleton] at hmem
    exact hmem ▸ hfirst
  | cons bytes reads =>
    simp only [List.head?_cons, Option.mem_some_iff, forall_eq']
    by_cases hbytes : bytes = []
    · refine iff_of_true (fun access hmem ↦ ?_) fun hne ↦ absurd hbytes hne
      unfold readName readInt at hmem
      rw [log_touch, log_recv_cons, hbytes, List.take_nil, if_pos rfl, log_ret,
        List.mem_singleton] at hmem
      exact hmem ▸ hfirst
    have htake : bytes.take 4 ≠ [] := by simp [hbytes]
    rw [forall_prop_of_true hbytes]
    generalize hlen : getInt (fill buffer 0 (bytes.take 4)) 0 = filenameLen
    constructor
    · intro hwithin
      by_contra hneg
      have hmem : ⟨filenameLen, 1⟩ ∈
          (readName buffer (.ret result) next).log (bytes :: reads) counts :=
        mem_log_readName htake hlen (Int.lt_of_not_ge hneg)
      exact hneg (hwithin _ hmem).offset_nonneg
    · intro hnonneg
      unfold readName readInt
      rw [log_touch, log_recv_cons, if_neg htake, log_touch]
      simp only [hlen, List.forall_mem_cons]
      refine ⟨hfirst, hfirst, fun access hmem ↦ ?_⟩
      by_cases hlong : filenameLen > 1000
      · rw [if_pos hlong] at hmem
        exact absurd hmem List.not_mem_nil
      · rw [if_neg hlong] at hmem
        exact (all_readName_rest hnonneg (by omega) hnext).of_mem_log hmem

end Bounds

end Accesses

/-- Whatever a client sends and however it is read, the accesses of `for_download`, and those of
`for_upload`, stay in the buffer exactly when no name length is read or one that is not negative. -/
theorem accesses_within_iff (self : Config) (system : System) (md5 : Digest) (buffer : ℕ → UInt8)
    (reads : List (List UInt8)) (counts : List ℕ) :
    ((∀ access ∈ (Accesses.forDownload self system md5 buffer).log reads counts, access.Within) ↔
      ∀ bytes ∈ reads.head?, bytes ≠ [] → 0 ≤ getInt (fill buffer 0 (bytes.take 4)) 0) ∧
    ((∀ access ∈ (Accesses.forUpload self system md5 buffer).log reads counts, access.Within) ↔
      ∀ bytes ∈ reads.head?, bytes ≠ [] → 0 ≤ getInt (fill buffer 0 (bytes.take 4)) 0) :=
  ⟨Accesses.within_log_readName_iff buffer none
      (fun buffer _ hname ↦ Accesses.all_openDownload self system md5 buffer hname) reads counts,
    Accesses.within_log_readName_iff buffer none
      (fun buffer _ hname ↦ Accesses.all_openUpload self system md5 buffer hname) reads counts⟩

/-- A server that has no files. -/
def bareSystem : System where
  openErrno _ := 0
  served _ := none
  clock := ([], [])
  filesize _ := 0

/-- The name length -1: the zero byte is stored in front of the buffer. -/
theorem not_accesses_within_minus_one :
    (⟨-1, 1⟩ ∈ (Accesses.forDownload ⟨none, none, none, none⟩ bareSystem sampleDigest
        fun _ ↦ 0).log [[255, 255, 255, 255]] []) ∧
      (⟨-1, 1⟩ ∈ (Accesses.forUpload ⟨none, none, none, none⟩ bareSystem sampleDigest
        fun _ ↦ 0).log [[255, 255, 255, 255]] []) ∧
      ¬ (Access.mk (-1) 1).Within := by
  refine ⟨?_, ?_, fun hwithin ↦ absurd hwithin.offset_nonneg (by decide)⟩
  · exact Accesses.mem_log_readName (by decide) (by decide) (by decide)
  · exact Accesses.mem_log_readName (by decide) (by decide) (by decide)

end Katmai.MiniFilexchg
