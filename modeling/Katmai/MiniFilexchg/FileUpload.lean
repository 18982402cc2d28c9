import Katmai.MiniFilexchg.ConnectionLoops

/-!
# Uploads

`mfc_ftpput` runs against `fchg_server` and `for_upload`. The client announces the length of the
remote name from the variable in which it has the result of its last `read`, four, whatever the name
(`ends_uploadStart_iff`). A name of four bytes is read in full, and then the upload succeeds in all
runs: the client returns 1 and the server has stored the file under the name (`ends_uploaded`). Of a
longer name the server reads four bytes and opens another file (`not_ends_of_gt`); of a shorter one
it waits for the rest while the client waits for the server (`not_ends_of_lt`). So uploads succeed
exactly for names of four bytes (`upload_faithful_iff`).
-/

set_option autoImplicit false
set_option relaxedAutoImplicit false

namespace Katmai.MiniFilexchg

open Katmai.FileServer Katmai.Foundation

/-- A local file that can be uploaded: its size is positive and fits an `int`. -/
structure LocalFile where
  bytes : List UInt8
  nonempty : bytes ≠ []
  length_lt : bytes.length < 2 ^ 31

/-! ### The loops over the file -/

section FileLoops

variable {inbox sent : List UInt8}

/-- The bytes of the file are received and stored. -/
theorem converges_receiveLoop {Q : Prog UInt8 Stored → List UInt8 → Prop}
    {bytes stored hashed : List UInt8} {totalLen : ℕ} {buffer : ℕ → UInt8}
    {failed : List UInt8 → Prog UInt8 Stored}
    {next : (ℕ → UInt8) → List UInt8 → List UInt8 → Prog UInt8 Stored}
    (hlength : bytes.length = totalLen)
    (hnext : ∀ buffer, Converges Q (next buffer (stored ++ bytes) (hashed ++ bytes)) inbox sent) :
    Converges Q (receiveLoop totalLen stored hashed buffer failed next) (bytes ++ inbox) sent := by
  induction totalLen using Nat.strongRecOn generalizing bytes stored hashed buffer with
  | ind totalLen ih =>
    rw [receiveLoop]
    split_ifs with htotal hlarge
    · rw [htotal, List.length_eq_zero_iff] at hlength
      simp only [hlength, List.append_nil] at hnext
      rw [hlength]
      exact hnext buffer
    all_goals
      refine .recvSome_append (by omega) (by omega) fun k hk hle ↦ ?_
      have htake : (bytes.take k).length = k := List.length_take_of_le (by omega)
      rw [if_neg (take_ne_nil hk (by omega)), htake]
      refine converges_storeLoop (ih (totalLen - k) (by omega) ?_ fun buffer ↦ ?_)
      · rw [List.length_drop, hlength]
      · rw [List.append_assoc, List.append_assoc, List.take_append_drop]
        exact hnext buffer

theorem returns_receiveLoop {R : Stored → Prop} {stored hashed : List UInt8} {totalLen : ℕ}
    {buffer : ℕ → UInt8} {failed : List UInt8 → Prog UInt8 Stored}
    {next : (ℕ → UInt8) → List UInt8 → List UInt8 → Prog UInt8 Stored}
    (hfailed : ∀ stored, (failed stored).Returns R)
    (hnext : ∀ buffer stored hashed, (next buffer stored hashed).Returns R) :
    (receiveLoop totalLen stored hashed buffer failed next).Returns R := by
  induction totalLen using Nat.strongRecOn generalizing stored hashed buffer with
  | ind totalLen ih =>
    rw [receiveLoop]
    by_cases htotal : totalLen = 0
    · rw [if_pos htotal]
      exact hnext buffer stored hashed
    rw [if_neg htotal]
    refine .recvSome fun bytes ↦ ?_
    split_ifs with hbytes
    · exact hfailed stored
    · have hpos := List.length_pos_iff.mpr hbytes
      exact returns_storeLoop fun stored ↦ ih _ (by omega)

/-- The local file is sent. -/
theorem converges_sendLocal {Q : Prog UInt8 ℤ → List UInt8 → Prop} {file hashed : List UInt8}
    {buffer : ℕ → UInt8} {next : (ℕ → UInt8) → List UInt8 → Prog UInt8 ℤ}
    (hnext : ∀ buffer, Converges Q (next buffer (hashed ++ file)) inbox sent) :
    Converges Q (sendLocal file hashed buffer next) inbox (file ++ sent) := by
  induction hn : file.length using Nat.strongRecOn generalizing file hashed buffer with
  | ind n ih =>
    rw [sendLocal]
    split_ifs with hfile
    · simp only [hfile, List.append_nil] at hnext
      rw [hfile]
      exact hnext buffer
    · have hpos := List.length_pos_iff.mpr hfile
      refine .choose (by omega) fun k ↦ ?_
      have hlt := k.isLt
      have hlater : Converges Q (sendLocal (file.drop (k + 1)) (hashed ++ file.take (k + 1))
          (fill buffer 0 (file.take (k + 1))) next) inbox (file.drop (k + 1) ++ sent) := by
        refine ih _ (by rw [List.length_drop]; omega) (fun buffer ↦ ?_) rfl
        rw [List.append_assoc, List.take_append_drop]
        exact hnext buffer
      have hconv := converges_writeLoop (file.take (k + 1)) hlater
      rwa [← List.append_assoc, List.take_append_drop] at hconv

end FileLoops

/-! ### Up to the name -/

section Upload

variable (md5 : Digest) (system : System) (exportdir : Option (List UInt8)) (uploaddir : List UInt8)
  (request response : Option Signature) (name : RemoteName) (file : LocalFile)

/-- The server of an upload. -/
def uploadPeers : Config :=
  peers exportdir (some uploaddir) request response

/-- The start of an upload. -/
def uploadStart (clientBuffer serverBuffer : ℕ → UInt8) : Dialogue UInt8 ℤ Stored :=
  ⟨mfcFtpput md5 (uploadPeers exportdir uploaddir request response) name.bytes file.bytes
      clientBuffer,
    fchgServer (uploadPeers exportdir uploaddir request response) system md5 serverBuffer, [], []⟩

/-- The upload has succeeded. -/
def Uploaded (final : Dialogue UInt8 ℤ Stored) : Prop :=
  final.left = .ret 1 ∧ final.right = .ret (some (uploaddir ++ 47 :: name.bytes, file.bytes))

/-- The server reads a name of four bytes. -/
def readFour (buffer : ℕ → UInt8) : Prog UInt8 Stored :=
  readLoop buffer 0 4 (.ret none) fun buffer ↦
    openUpload (uploadPeers exportdir uploaddir request response) system md5
      (Function.update buffer 4 0) (cString buffer 4)

/-- Whatever the name is, the client announces the four bytes that its last `read` has returned. -/
theorem ends_uploadStart_iff (P : Dialogue UInt8 ℤ Stored → Prop)
    (clientBuffer serverBuffer : ℕ → UInt8) :
    ∃ buffer buffer', Ends P (uploadStart md5 system exportdir uploaddir request response name file
        clientBuffer serverBuffer) ↔
      Ends P ⟨putFile md5 file.bytes buffer,
        readFour md5 system exportdir uploaddir request response buffer', [], name.bytes⟩ := by
  let self := uploadPeers exportdir uploaddir request response
  let asking := putInt (signedIn self clientBuffer) 0 1
  let announcing := putInt (fill asking 0 (intBytes 1)) 0 4
  refine ⟨announcing, fill serverBuffer 0 (intBytes 4), ?_⟩
  have hask : ComesTo (putName md5 name.bytes file.bytes asking) []
      (.send (firstBytes asking 4) (putName md5 name.bytes file.bytes asking)) []
      (intBytes 1 ++ []) :=
    converges_sendInt .refl
  have haccept : ComesTo (forUpload self system md5 serverBuffer) []
      (serveCommand self system md5 serverBuffer) (intBytes 1 ++ []) (intBytes 1 ++ []) := by
    refine converges_readInt (length_intBytes 1) ?_
    rw [getInt_fill (by decide) (by decide), if_neg (by decide), if_pos rfl, if_neg nofun]
    exact .send .refl
  have hannounce : ComesTo (putFile md5 file.bytes announcing) []
      (putName md5 name.bytes file.bytes asking) (intBytes 1 ++ [])
      (intBytes 4 ++ (name.bytes ++ [])) := by
    refine converges_readInt (length_intBytes 1) ?_
    rw [getInt_fill (by decide) (by decide), if_neg (by decide)]
    exact converges_sendInt (.send .refl)
  have hread : ComesTo (readFour md5 system exportdir uploaddir request response
        (fill serverBuffer 0 (intBytes 4))) name.bytes
      (forUpload self system md5 serverBuffer) (intBytes 4 ++ name.bytes) [] := by
    unfold forUpload readName
    refine converges_readInt (length_intBytes 4) ?_
    rw [getInt_fill (by decide) (by decide), if_neg (by decide)]
    exact .refl
  unfold uploadStart mfcFtpput
  rw [if_neg name.nonempty, if_neg file.nonempty, ends_signIn_iff]
  refine (ends_left_iff hask).trans <| (ends_right_iff haccept).trans <|
    (ends_left_iff hannounce).trans ?_
  rw [List.append_nil, List.nil_append]
  exact ends_right_iff hread

variable {md5 system exportdir uploaddir request response name file}

/-! ### Names of four bytes -/

variable (md5 exportdir request response) in
/-- The server opens the file under its name. -/
theorem comesTo_receiveFile (hfour : name.bytes.length = 4)
    (hopen : system.openErrno (uploaddir ++ 47 :: name.bytes) = 0) (buffer : ℕ → UInt8) :
    ∃ buffer', ComesTo (receiveFile system md5 (uploaddir ++ 47 :: name.bytes) buffer') []
      (readFour md5 system exportdir uploaddir request response buffer) (name.bytes ++ [])
      (intBytes 0 ++ []) := by
  refine ⟨putInt (Function.update (fill buffer 0 name.bytes) 4 0) 0 0, ?_⟩
  refine converges_readLoop hfour ?_
  have hname : cString (fill buffer 0 name.bytes) 4 = name.bytes := by
    rw [← hfour]
    exact cString_fill name buffer
  unfold openUpload
  rw [hname, hasDotDot_name, if_neg nofun]
  change ComesTo _ _ (if system.openErrno (uploaddir ++ 47 :: name.bytes) ≠ 0 then _ else _) _ _
  rw [if_neg (not_not.mpr hopen)]
  exact converges_sendInt .refl

/-- The client sends the size and the file and waits for the digest. -/
theorem converges_putFile (buffer : ℕ → UInt8) :
    Converges (fun p inbox ↦ ∃ buffer, p = putVerdict md5 buffer file.bytes ∧ inbox = [])
      (putFile md5 file.bytes buffer) (intBytes 0 ++ [])
      (intBytes file.bytes.length ++ (file.bytes ++ [])) := by
  refine converges_readInt (length_intBytes 0) ?_
  rw [getInt_fill (by decide) (by decide), if_neg (by decide)]
  refine converges_sendInt (converges_sendLocal fun buffer ↦ .done ⟨buffer, ?_, rfl⟩)
  rw [List.nil_append]

/-- The server stores the file and sends the digest. -/
theorem comesTo_lastRead (filename : List UInt8) (buffer : ℕ → UInt8) :
    ComesTo (.recvWhole 4 fun _ ↦ .ret (some (filename, file.bytes))) []
      (receiveFile system md5 filename buffer)
      (intBytes file.bytes.length ++ (file.bytes ++ [])) (md5.sum file.bytes ++ []) := by
  have hpos := List.length_pos_iff.mpr file.nonempty
  have hlt := file.length_lt
  refine .recvWhole (length_intBytes _) ?_
  rw [getInt_fill (by omega) (by omega), if_neg (by omega), Int.toNat_natCast]
  refine converges_receiveLoop rfl fun buffer ↦ ?_
  rw [List.nil_append]
  exact .send .refl

/-- The client finds the digest right. -/
theorem comesTo_one (buffer : ℕ → UInt8) (hashed : List UInt8) :
    ComesTo (.ret 1) [] (putVerdict md5 buffer hashed) (md5.sum hashed ++ [])
      (intBytes 1 ++ []) := by
  refine .recvWhole (md5.length_sum hashed) ?_
  dsimp only
  rw [firstBytes_fill (md5.length_sum hashed), if_pos rfl]
  exact converges_sendInt .refl

/-- With the name read in full, the upload succeeds. -/
theorem ends_uploaded (hfour : name.bytes.length = 4)
    (hopen : system.openErrno (uploaddir ++ 47 :: name.bytes) = 0) (buffer buffer' : ℕ → UInt8) :
    Ends (Uploaded uploaddir name file) ⟨putFile md5 file.bytes buffer,
      readFour md5 system exportdir uploaddir request response buffer', [], name.bytes⟩ := by
  obtain ⟨opened, hread⟩ := comesTo_receiveFile md5 exportdir request response hfour hopen buffer'
  rw [List.append_nil] at hread
  refine (ends_right_iff hread).mpr <| (converges_putFile buffer).ends_left ?_
  rintro _ _ ⟨sent, rfl, rfl⟩
  refine (ends_right_iff (comesTo_lastRead _ opened)).mpr <|
    (ends_left_iff (comesTo_one sent file.bytes)).mpr <|
    (ends_right_iff (.recvWhole (length_intBytes 1) .refl)).mpr ?_
  exact ends_ret_iff.mpr ⟨rfl, rfl⟩

/-! ### Other names -/

/-- The server waits for the rest of a shorter name, and the client for the server. -/
theorem not_ends_of_lt (hlt : name.bytes.length < 4) (buffer buffer' : ℕ → UInt8) :
    ¬Ends (Uploaded uploaddir name file) ⟨putFile md5 file.bytes buffer,
      readFour md5 system exportdir uploaddir request response buffer', [], name.bytes⟩ := by
  intro hends
  have hpos := List.length_pos_iff.mpr name.nonempty
  unfold readFour at hends
  rw [readLoop, if_neg (by decide)] at hends
  have hlater := hends.of_step (.right (.recvSome 4 _ name.bytes name.bytes.length hpos
    (Nat.le_of_lt hlt) (Nat.le_refl _)))
  rw [List.take_length, List.drop_length, if_neg name.nonempty, readLoop, if_neg (by omega)]
    at hlater
  suffices hdone : putFile md5 file.bytes buffer = .ret 1 by cases hdone
  refine ((ends_iff_of_both_blocked ?_ ?_).mp hlater).1
  · exact .recvWhole id _ (by decide)
  · exact .recvSome id _ _

/-- The name of the file that a server has opened has at most `bound` bytes. -/
def PathBounded (bound : ℕ) (result : Stored) : Prop :=
  ∀ opened ∈ result, opened.1.length ≤ bound

theorem pathBounded_none (bound : ℕ) : PathBounded bound none :=
  nofun

theorem returns_receiveFile {filename : List UInt8} {bound : ℕ} (hbound : filename.length ≤ bound)
    (buffer : ℕ → UInt8) :
    (receiveFile system md5 filename buffer).Returns (PathBounded bound) := by
  have hresult (stored : List UInt8) : PathBounded bound (some (filename, stored)) := by
    rintro opened ⟨rfl⟩
    exact hbound
  refine .recvWhole fun bytes ↦ ?_
  dsimp only
  split_ifs with hsize
  · exact .ret (hresult [])
  · exact returns_receiveLoop (fun stored ↦ .ret (hresult stored)) fun _ stored hashed ↦
      .send (.recvWhole fun _ ↦ .ret (hresult stored))

/-- Having read four bytes of a name, the server opens no file with a longer name. -/
theorem returns_readFour (buffer : ℕ → UInt8) :
    (readFour md5 system exportdir uploaddir request response buffer).Returns
      (PathBounded (uploaddir.length + 5)) := by
  refine returns_readLoop (.ret (pathBounded_none _)) fun buffer ↦ ?_
  have hname : (cString buffer 4).length ≤ 4 :=
    (List.takeWhile_prefix _).length_le.trans_eq (length_firstBytes buffer 4)
  unfold openUpload
  split_ifs with hdots
  · exact .send (.ret (pathBounded_none _))
  change Prog.Returns _
    (if system.openErrno (uploaddir ++ 47 :: cString buffer 4) ≠ 0 then _ else _)
  split_ifs with herrno
  · exact .send (.ret (pathBounded_none _))
  · refine .send (returns_receiveFile ?_ _)
    rw [List.length_append, List.length_cons]
    omega

theorem not_ends_of_gt (hgt : 4 < name.bytes.length) (buffer buffer' : ℕ → UInt8) :
    ¬Ends (Uploaded uploaddir name file) ⟨putFile md5 file.bytes buffer,
      readFour md5 system exportdir uploaddir request response buffer', [], name.bytes⟩ := by
  intro hends
  obtain ⟨⟨_, _, _, _⟩, hreturns, rfl, rfl⟩ := hends.exists_returns (returns_readFour buffer')
  cases hreturns with
  | ret hresult =>
    have hlength := hresult _ rfl
    rw [List.length_append, List.length_cons] at hlength
    omega

/-! ### The result -/

variable (md5 system exportdir uploaddir request response name file) in
/-- When the file can be opened, an upload succeeds exactly for names of four bytes. -/
theorem upload_faithful_iff (hopen : system.openErrno (uploaddir ++ 47 :: name.bytes) = 0)
    (clientBuffer serverBuffer : ℕ → UInt8) :
    Ends (Uploaded uploaddir name file) (uploadStart md5 system exportdir uploaddir request response
        name file clientBuffer serverBuffer) ↔
      name.bytes.length = 4 := by
  obtain ⟨buffer, buffer', hstart⟩ := ends_uploadStart_iff md5 system exportdir uploaddir request
    response name file (Uploaded uploaddir name file) clientBuffer serverBuffer
  rw [hstart]
  constructor
  · intro hends
    rcases Nat.lt_trichotomy name.bytes.length 4 with hlt | hfour | hgt
    · exact absurd hends (not_ends_of_lt hlt buffer buffer')
    · exact hfour
    · exact absurd hends (not_ends_of_gt hgt buffer buffer')
  · exact fun hfour ↦ ends_uploaded hfour hopen buffer buffer'

end Upload

section Samples

/-- A server that opens every file for writing and has none to read. -/
def sampleSystem : System where
  openErrno _ := 0
  served _ := none
  clock := (List.replicate 16 0, List.replicate 8 0)
  filesize _ := 0

/-- The file `a`. -/
def sampleFile : LocalFile where
  bytes := [97]
  nonempty := nofun
  length_lt := by decide

/-- The name `notes`. -/
def notes : RemoteName where
  bytes := [110, 111, 116, 101, 115]
  nonempty := nofun
  nonzero := by decide
  length_le := by decide
  no_dotDot := by decide

theorem upload_faithful_note :
    Ends (Uploaded [117] note sampleFile) (uploadStart sampleDigest sampleSystem none [117] none
      none note sampleFile (fun _ ↦ 0) fun _ ↦ 0) :=
  (upload_faithful_iff sampleDigest sampleSystem none [117] none none note sampleFile rfl _ _).mpr
    rfl

/-- The upload of the file `notes` fails. -/
theorem upload_of_notes_fails :
    ¬Ends (Uploaded [117] notes sampleFile) (uploadStart sampleDigest sampleSystem none [117] none
      none notes sampleFile (fun _ ↦ 0) fun _ ↦ 0) := by
  obtain ⟨buffer, buffer', hstart⟩ := ends_uploadStart_iff sampleDigest sampleSystem none [117] none
    none notes sampleFile (Uploaded [117] notes sampleFile) (fun _ ↦ 0) fun _ ↦ 0
  rw [hstart]
  exact not_ends_of_gt (by decide) buffer buffer'

end Samples

end Katmai.MiniFilexchg
