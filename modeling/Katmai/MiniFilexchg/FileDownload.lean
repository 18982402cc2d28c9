import Katmai.MiniFilexchg.ConnectionLoops

/-!
# Downloads

`mfc_ftpget` runs against `fchg_server` and `for_download`. The server sends the size that `fstat`
has told and then whatever its reads of the file return; the client reads pieces of up to 1280 bytes
until it has at least the size (`Fetches`), sends the digest of what it has and reads the verdict.

Of a file that has not changed, the client has all bytes then, the digests agree, and it returns 1
(`ends_of_unchanged`). Of a file that has shrunk it gets too few bytes and fails (`ends_of_shrunk`).
When the file has grown, bytes of it may be left in the connection, and the client takes the first
of them for the verdict; what its reads can return is looked at in all pieces
(`ends_fetchLoop_iff`). So a download does what is wanted of it exactly when no pieces leave bytes
that read as the verdict 1 (`Misread`, `download_faithful_iff`).
-/

set_option autoImplicit false
set_option relaxedAutoImplicit false

namespace Katmai.MiniFilexchg

open Katmai.FileServer Katmai.Foundation

/-! ### The loops over the file -/

/-- A buffer into which pieces have come one after the other, each at its start. -/
def overlay (buffer : ℕ → UInt8) (pieces : List (List UInt8)) : ℕ → UInt8 :=
  pieces.foldl (fun buffer bytes ↦ fill buffer 0 bytes) buffer

/-- The server sends what it reads of the file. -/
theorem converges_sendServed {Q : Prog UInt8 Stored → List UInt8 → Prop} {inbox sent : List UInt8}
    {next : (ℕ → UInt8) → List UInt8 → ℤ → Prog UInt8 Stored} (reads : List (List UInt8))
    {hashed : List UInt8} {totalLen : ℤ} {buffer : ℕ → UInt8}
    (hnext : Converges Q (next (overlay buffer reads) (hashed ++ reads.flatten)
      (Int.bmod (totalLen - reads.flatten.length) (2 ^ 32))) inbox sent) :
    Converges Q (sendServed next reads hashed (Int.bmod totalLen (2 ^ 32)) buffer) inbox
      (reads.flatten ++ sent) := by
  induction reads generalizing hashed totalLen buffer with
  | nil => simpa [sendServed, overlay] using hnext
  | cons bytes reads ih =>
    rw [sendServed, List.flatten_cons, List.append_assoc, Int.bmod_sub_bmod]
    refine converges_writeLoop bytes (ih ?_)
    rw [List.flatten_cons, ← List.append_assoc, List.length_append, Int.natCast_add, ← Int.sub_sub]
      at hnext
    exact hnext

/-- The client has read these pieces when it finds that none of `filelen` bytes are missing. -/
def Fetches : ℕ → List (List UInt8) → Prop
  | filelen, [] => filelen = 0
  | filelen, bytes :: pieces =>
    filelen ≠ 0 ∧ bytes ≠ [] ∧ bytes.length ≤ 1280 ∧ Fetches (filelen - bytes.length) pieces

theorem Fetches.le_length {filelen : ℕ} {pieces : List (List UInt8)}
    (hfetches : Fetches filelen pieces) : filelen ≤ pieces.flatten.length := by
  induction pieces generalizing filelen with
  | nil => exact Nat.le_of_eq hfetches
  | cons bytes pieces ih =>
    have hlater := ih hfetches.2.2.2
    rw [List.flatten_cons, List.length_append]
    omega

/-- The client reads less than 1280 bytes too many. -/
theorem Fetches.length_lt {filelen : ℕ} {pieces : List (List UInt8)}
    (hfetches : Fetches filelen pieces) : pieces.flatten.length < filelen + 1280 := by
  induction pieces generalizing filelen with
  | nil => simp
  | cons bytes pieces ih =>
    obtain ⟨hpos, -, hle, hlater⟩ := hfetches
    rw [List.flatten_cons, List.length_append]
    rcases Nat.lt_or_ge bytes.length filelen with hlt | hge
    · have hlength := ih hlater
      omega
    · -- with the last piece the loop ends
      rw [Nat.sub_eq_zero_of_le hge] at hlater
      cases pieces with
      | nil =>
        rw [List.flatten_nil, List.length_nil]
        omega
      | cons _ _ => exact absurd rfl hlater.1

section Reads

variable {P : Dialogue UInt8 (ℤ × List UInt8) Stored → Prop} {server : Prog UInt8 Stored}
  {failed : List UInt8 → Prog UInt8 (ℤ × List UInt8)}
  {next : (ℕ → UInt8) → List UInt8 → List UInt8 → Prog UInt8 (ℤ × List UInt8)}

/-- The client reads on while the server waits: all that its reads can return is to be looked at. -/
theorem ends_fetchLoop_iff (hblocked : Blocked False server []) {filelen : ℕ}
    {served stored hashed : List UInt8} {buffer : ℕ → UInt8} (hle : filelen ≤ served.length) :
    Ends P ⟨fetchLoop filelen stored hashed buffer failed next, server, served, []⟩ ↔
      ∀ pieces rest, served = pieces.flatten ++ rest → Fetches filelen pieces →
        Ends P ⟨next (overlay buffer pieces) (stored ++ pieces.flatten) (hashed ++ pieces.flatten),
          server, rest, []⟩ := by
  induction filelen using Nat.strongRecOn generalizing served stored hashed buffer with
  | ind filelen ih =>
    rw [fetchLoop]
    split_ifs with hfilelen
    · subst hfilelen
      constructor
      · rintro hends pieces rest rfl hfetches
        cases pieces with
        | nil => simpa [overlay] using hends
        | cons bytes pieces => exact absurd rfl hfetches.1
      · intro hall
        simpa [overlay] using hall [] served rfl rfl
    have hpos : 1 ≤ served.length := by omega
    have hwaits (onBytes : List UInt8 → Prog UInt8 (ℤ × List UInt8)) :
        Blocked (Prog.recvSome 1280 onBytes).IsRet server [] := hblocked
    rw [ends_iff_of_blocked (hwaits _)
      ⟨_, _, _, .recvSome 1280 _ served 1 (Nat.le_refl 1) (by decide) hpos⟩]
    have hlater (k : ℕ) (hk : 1 ≤ k) (hlength : k ≤ served.length) :
        Ends P ⟨if served.take k = [] then failed stored
          else fetchLoop (filelen - (served.take k).length) (stored ++ served.take k)
            (hashed ++ served.take k) (fill buffer 0 (served.take k)) failed next,
          server, served.drop k, []⟩ ↔
        ∀ pieces rest, served.drop k = pieces.flatten ++ rest →
          Fetches (filelen - (served.take k).length) pieces →
          Ends P ⟨next (overlay buffer (served.take k :: pieces))
            (stored ++ (served.take k :: pieces).flatten)
            (hashed ++ (served.take k :: pieces).flatten), server, rest, []⟩ := by
      have htake : (served.take k).length = k := List.length_take_of_le hlength
      rw [if_neg (take_ne_nil hk hlength), ih _ (by omega) (by rw [List.length_drop]; omega)]
      simp only [List.flatten_cons, List.append_assoc]
      rfl
    constructor
    · rintro hall pieces rest hserved hfetches
      cases pieces with
      | nil => exact absurd hfetches hfilelen
      | cons bytes pieces =>
        obtain ⟨-, hbytes, hle', hfetches'⟩ := hfetches
        rw [List.flatten_cons, List.append_assoc] at hserved
        have htake : served.take bytes.length = bytes := by rw [hserved, List.take_left]
        have hdrop : served.drop bytes.length = pieces.flatten ++ rest := by
          rw [hserved, List.drop_left]
        have hlength : bytes.length ≤ served.length := by
          rw [hserved, List.length_append]
          omega
        have hone := List.length_pos_iff.mpr hbytes
        have hends := (hlater bytes.length hone hlength).mp
          (by simpa using hall _ _ _ (.recvSome 1280 _ served bytes.length hone hle' hlength))
          pieces rest hdrop (by rw [htake]; exact hfetches')
        rwa [htake] at hends
    · rintro hall l' rest sent hmove
      cases hmove with
      | recvSome _ _ _ k hk hle' hlength =>
        rw [List.append_nil]
        refine (hlater k hk hlength).mpr fun pieces rest hdrop hfetches ↦ ?_
        have htake : (served.take k).length = k := List.length_take_of_le hlength
        refine hall _ rest ?_ ⟨hfilelen, take_ne_nil hk hlength, by omega, hfetches⟩
        rw [List.flatten_cons, List.append_assoc, ← hdrop, List.take_append_drop]
      | recvSomeEnd => exact absurd hpos (by decide)

/-- With too few bytes and the server done, the client fails. -/
theorem ends_fetchLoop_short {result : Stored} {filelen : ℕ} {served stored hashed : List UInt8}
    {buffer : ℕ → UInt8} (hlt : served.length < filelen)
    (hfailed : ∀ stored, Ends P ⟨failed stored, .ret result, [], []⟩) :
    Ends P ⟨fetchLoop filelen stored hashed buffer failed next, .ret result, served, []⟩ := by
  induction hn : served.length using Nat.strongRecOn generalizing filelen served stored hashed
    buffer with
  | ind n ih =>
    rw [fetchLoop, if_neg (by omega)]
    cases served with
    | nil => exact ends_recvSome_end_iff.mpr (hfailed stored)
    | cons byte served =>
      have hpos : 1 ≤ (byte :: served).length := Nat.succ_pos _
      rw [ends_iff_of_blocked (.ret _ _)
        ⟨_, _, _, .recvSome 1280 _ _ 1 (Nat.le_refl 1) (by decide) hpos⟩]
      rintro l' rest sent hmove
      cases hmove with
      | recvSome _ _ _ k hk hle hlength =>
        have htake : ((byte :: served).take k).length = k := List.length_take_of_le hlength
        dsimp only
        rw [List.append_nil, if_neg (take_ne_nil hk hlength), htake]
        exact ih _ (by rw [List.length_drop]; omega) (by rw [List.length_drop]; omega) rfl

end Reads

/-! ### Up to the file -/

section Download

variable (md5 : Digest) (system : System) (exportdir uploaddir : Option (List UInt8))
  (request response : Option Signature) (name : RemoteName) (file : ServedFile)

/-- The start of a download. -/
def downloadStart (clientBuffer serverBuffer : ℕ → UInt8) :
    Dialogue UInt8 (ℤ × List UInt8) Stored :=
  ⟨mfcFtpget md5 (peers exportdir uploaddir request response) name.bytes clientBuffer,
    fchgServer (peers exportdir uploaddir request response) system md5 serverBuffer, [], []⟩

/-- The path of a file that is served. -/
def servedPath : List UInt8 :=
  exportdir.elim name.bytes fun exportdir ↦ exportdir ++ 47 :: name.bytes

/-- What the server reads of a file. -/
def ServedFile.content : List UInt8 :=
  file.reads.flatten

/-- The server has sent the size and the file, and the client has read the size. -/
def transferred (buffer serverBuffer : ℕ → UInt8) : Dialogue UInt8 (ℤ × List UInt8) Stored :=
  ⟨fetchLoop file.size [] [] (fill buffer 0 (intBytes file.size)) (fun stored ↦ .ret (0, stored))
      (getVerdict md5),
    serveVerdict md5 serverBuffer file.content
      (Int.bmod (file.size - file.content.length) (2 ^ 32)), file.content, []⟩

variable {system exportdir name file}

theorem comesTo_serveVerdict (hserved : system.served (servedPath exportdir name) = some file)
    (hpos : file.size ≠ 0) (buffer : ℕ → UInt8) :
    ∃ buffer', ComesTo (serveVerdict md5 buffer' file.content
        (Int.bmod (file.size - file.content.length) (2 ^ 32))) []
      (openDownload (peers exportdir uploaddir request response) system md5 buffer name.bytes) []
      (intBytes file.size ++ (file.content ++ [])) := by
  refine ⟨overlay (putInt buffer 0 file.size) file.reads, ?_⟩
  have hpath : system.served ((peers exportdir uploaddir request response).exportdir.elim name.bytes
      fun exportdir ↦ exportdir ++ 47 :: name.bytes) = some file := hserved
  unfold openDownload
  rw [hasDotDot_name, if_neg nofun]
  dsimp only
  rw [hpath]
  dsimp only
  rw [if_neg hpos, getInt_putInt]
  exact converges_sendInt (converges_sendServed file.reads .refl)

theorem ends_downloadStart_iff (hserved : system.served (servedPath exportdir name) = some file)
    (hpos : file.size ≠ 0) (hlt : file.size < 2 ^ 31)
    (P : Dialogue UInt8 (ℤ × List UInt8) Stored → Prop) (clientBuffer serverBuffer : ℕ → UInt8) :
    ∃ buffer buffer', Ends P (downloadStart md5 system exportdir uploaddir request response name
        clientBuffer serverBuffer) ↔ Ends P (transferred md5 file buffer buffer') := by
  let self := peers exportdir uploaddir request response
  let asking := putInt (signedIn self clientBuffer) 0 0
  have hlength := name.length_le
  obtain ⟨buffer', hopen⟩ := comesTo_serveVerdict md5 uploaddir request response hserved hpos
    (Function.update (fill (fill serverBuffer 0 (intBytes name.bytes.length)) 0 name.bytes)
      name.bytes.length 0)
  refine ⟨asking, buffer', ?_⟩
  have hask : ComesTo (getFile md5 asking) []
      (.send (firstBytes asking 4) <| .send (intBytes name.bytes.length) <| .send name.bytes <|
        getFile md5 asking) []
      (intBytes 0 ++ (intBytes name.bytes.length ++ (name.bytes ++ []))) :=
    converges_sendInt (.send (.send .refl))
  have hserve : ComesTo (serveVerdict md5 buffer' file.content
        (Int.bmod (file.size - file.content.length) (2 ^ 32))) []
      (serveCommand self system md5 serverBuffer)
      (intBytes 0 ++ (intBytes name.bytes.length ++ (name.bytes ++ [])))
      (intBytes file.size ++ (file.content ++ [])) := by
    refine converges_readInt (length_intBytes 0) ?_
    rw [getInt_fill (by decide) (by decide), if_pos rfl]
    unfold forDownload readName
    refine converges_readInt (length_intBytes _) ?_
    dsimp only
    rw [getInt_fill (by omega) (by omega), if_neg (by omega), Int.toNat_natCast]
    refine converges_readLoop rfl ?_
    rw [cString_fill]
    exact hopen
  have hsize : ComesTo (fetchLoop file.size [] [] (fill asking 0 (intBytes file.size))
        (fun stored ↦ .ret (0, stored)) (getVerdict md5)) file.content
      (getFile md5 asking) (intBytes file.size ++ file.content) [] := by
    refine converges_readInt (length_intBytes _) ?_
    rw [getInt_fill (by omega) (by omega), if_neg (by omega), Int.toNat_natCast]
    exact .refl
  unfold downloadStart mfcFtpget
  rw [if_neg name.nonempty, ends_signIn_iff]
  refine (ends_left_iff hask).trans <| (ends_right_iff hserve).trans ?_
  rw [List.append_nil, List.nil_append]
  exact ends_left_iff hsize

/-! ### The verdict -/

variable (file) in
/-- What is wanted of a download: of a file that has not changed it succeeds, and where it succeeds
the client has what the server has read. -/
def Downloaded (final : Dialogue UInt8 (ℤ × List UInt8) Stored) : Prop :=
  ∃ rc stored, final.left = .ret (rc, stored) ∧
    (file.content.length = file.size → rc = 1 ∧ stored = file.content) ∧
    (rc = 1 → stored = file.content)

variable {md5}

theorem serveVerdict_of_ne {totalLen : ℤ} (hne : totalLen ≠ 0) (buffer : ℕ → UInt8)
    (hashed : List UInt8) : serveVerdict md5 buffer hashed totalLen = .ret none :=
  if_pos hne

/-- Until the client is done, the server waits or is done. -/
theorem blocked_serveVerdict (buffer : ℕ → UInt8) (hashed : List UInt8) (totalLen : ℤ) :
    Blocked False (serveVerdict md5 buffer hashed totalLen) [] := by
  unfold serveVerdict
  split_ifs with hne
  · exact .ret none []
  · rw [readLoop, if_neg (by decide)]
    exact .recvSome id _ _

variable (md5) in
/-- The server compares the digest. -/
theorem comesTo_none (buffer : ℕ → UInt8) (hashed : List UInt8) {digest : List UInt8}
    (hlength : digest.length = 16) :
    ComesTo (.ret none) [] (serveVerdict md5 buffer hashed 0) (digest ++ [])
      (intBytes (if md5.sum hashed = digest then 1 else 0) ++ []) := by
  unfold serveVerdict
  rw [if_neg (not_not.mpr rfl)]
  refine converges_readLoop hlength ?_
  dsimp only
  rw [firstBytes_fill hlength]
  exact converges_sendInt .refl

/-- The difference of the sizes is found, as long as it is small. -/
theorem bmod_ne_zero {difference : ℤ} (hlo : -2 ^ 31 ≤ difference) (hhi : difference < 2 ^ 31)
    (hne : difference ≠ 0) : Int.bmod difference (2 ^ 32) ≠ 0 := by
  rwa [bmod_eq_self hlo hhi]

/-- The file has been read as it was served: the digests agree. -/
theorem ends_getVerdict_whole (buffer serverBuffer : ℕ → UInt8) :
    Ends (Downloaded file) ⟨getVerdict md5 buffer file.content file.content,
      serveVerdict md5 serverBuffer file.content 0, [], []⟩ := by
  have hread : ComesTo (.ret ((1 : ℤ), file.content)) []
      (readInt buffer (.ret (0, file.content)) fun buffer _ ↦
        if getInt buffer 0 = 1 then .ret (1, file.content) else .ret (0, file.content))
      (intBytes 1 ++ []) [] := by
    refine converges_readInt (length_intBytes 1) ?_
    rw [getInt_fill (by decide) (by decide), if_pos rfl]
    exact .refl
  have hcompare := comesTo_none md5 serverBuffer file.content (md5.length_sum file.content)
  rw [if_pos rfl] at hcompare
  refine (ends_left_iff (.send .refl)).mpr <| (ends_right_iff hcompare).mpr <|
    (ends_left_iff hread).mpr <| ends_ret_iff.mpr ?_
  exact ⟨1, file.content, rfl, fun _ ↦ ⟨rfl, rfl⟩, fun _ ↦ rfl⟩

/-- The file has changed: the download is to fail. -/
theorem ends_result_iff (hchanged : file.content.length ≠ file.size) {stored : List UInt8}
    (hstored : stored ≠ file.content) (verdict : ℤ) (toLeft toRight : List UInt8) :
    Ends (Downloaded file) ⟨if verdict = 1 then .ret (1, stored) else .ret (0, stored), .ret none,
        toLeft, toRight⟩ ↔
      verdict ≠ 1 := by
  split_ifs with hone
  · rw [ends_ret_iff]
    refine iff_of_false ?_ (not_not.mpr hone)
    rintro ⟨_, _, ⟨⟩, -, hsame⟩
    exact hstored (hsame rfl)
  · rw [ends_ret_iff]
    refine iff_of_true ⟨0, stored, rfl, fun hlength ↦ absurd hlength hchanged, nofun⟩ hone

/-- With bytes of the file left, the client takes the next of them for the verdict. -/
theorem ends_getVerdict_rest_iff (hchanged : file.content.length ≠ file.size)
    {stored rest : List UInt8} (hstored : stored ≠ file.content) (hrest : rest ≠ [])
    {totalLen : ℤ} (hshort : rest.length < 4 → totalLen ≠ 0) (buffer serverBuffer : ℕ → UInt8) :
    Ends (Downloaded file) ⟨getVerdict md5 buffer stored stored,
        serveVerdict md5 serverBuffer file.content totalLen, rest, []⟩ ↔
      getInt (fill buffer 0 (rest.take 4)) 0 ≠ 1 := by
  rcases Nat.lt_or_ge rest.length 4 with hlt | hge
  · rw [serveVerdict_of_ne (hshort hlt), List.take_of_length_le (Nat.le_of_lt hlt)]
    refine (ends_left_iff (.send .refl)).trans <| (ends_recvWhole_end_iff hlt).trans ?_
    rw [if_neg hrest]
    exact ends_result_iff hchanged hstored _ _ _
  · have hread : ComesTo (if getInt (fill buffer 0 (rest.take 4)) 0 = 1 then .ret (1, stored)
          else .ret (0, stored)) (rest.drop 4)
        (getVerdict md5 buffer stored stored) (rest.take 4 ++ rest.drop 4)
        (md5.sum stored ++ []) :=
      .send (converges_readInt (List.length_take_of_le hge) .refl)
    rw [List.take_append_drop] at hread
    refine (ends_left_iff hread).trans ?_
    by_cases hne : totalLen ≠ 0
    · rw [serveVerdict_of_ne hne]
      exact ends_result_iff hchanged hstored _ _ _
    · rw [not_not.mp hne]
      have hcompare := comesTo_none md5 serverBuffer file.content (md5.length_sum stored)
      refine (ends_right_iff hcompare).trans ?_
      exact ends_result_iff hchanged hstored _ _ _

/-! ### The result -/

variable (file) in
/-- The client can read the file in pieces such that, when it finds no bytes missing, bytes of the
file are left, and these make the verdict come out as 1. A verdict of less than four bytes is
completed by what is in the buffer: the size, and the pieces over it. -/
def Misread : Prop :=
  ∃ pieces rest, file.content = pieces.flatten ++ rest ∧ Fetches file.size pieces ∧ rest ≠ [] ∧
    getInt (fill (overlay (fill (fun _ ↦ 0) 0 (intBytes file.size)) pieces) 0 (rest.take 4)) 0 = 1

theorem overlay_congr {buffer other : ℕ → UInt8} {j : ℕ} (hagree : other j = buffer j)
    (pieces : List (List UInt8)) : overlay other pieces j = overlay buffer pieces j := by
  induction pieces generalizing buffer other with
  | nil => exact hagree
  | cons bytes pieces ih =>
    refine ih ?_
    simp only [fill, hagree]

/-- The verdict does not depend on what was in the buffer first. -/
theorem getInt_overlay (buffer : ℕ → UInt8) (size : ℤ) (pieces : List (List UInt8))
    (rest : List UInt8) :
    getInt (fill (overlay (fill buffer 0 (intBytes size)) pieces) 0 rest) 0 =
      getInt (fill (overlay (fill (fun _ ↦ 0) 0 (intBytes size)) pieces) 0 rest) 0 := by
  refine getInt_congr fun k hk ↦ ?_
  have hlt : 0 + k < (intBytes size).length := by
    rw [length_intBytes]
    omega
  have hfirst : fill buffer 0 (intBytes size) (0 + k) =
      fill (fun _ ↦ 0) 0 (intBytes size) (0 + k) := by
    rw [fill_apply hlt, fill_apply hlt]
  have hpieces := overlay_congr hfirst pieces
  simp only [fill, hpieces]

/-- A file of which the server has read too little: the download fails, as it is to. -/
theorem ends_of_shrunk (hlt : file.size < 2 ^ 31) (hshrunk : file.content.length < file.size)
    (buffer serverBuffer : ℕ → UInt8) :
    Ends (Downloaded file) (transferred md5 file buffer serverBuffer) := by
  unfold transferred
  rw [serveVerdict_of_ne (bmod_ne_zero (by omega) (by omega) (by omega))]
  refine ends_fetchLoop_short hshrunk fun stored ↦ ends_ret_iff.mpr ?_
  exact ⟨0, stored, rfl, fun hlength ↦ absurd hlength (Nat.ne_of_lt hshrunk), nofun⟩

/-- A file that has not changed. -/
theorem ends_of_unchanged (hlength : file.content.length = file.size)
    (buffer serverBuffer : ℕ → UInt8) :
    Ends (Downloaded file) (transferred md5 file buffer serverBuffer) := by
  unfold transferred
  rw [ends_fetchLoop_iff (blocked_serveVerdict _ _ _) (Nat.le_of_eq hlength.symm)]
  intro pieces rest hcontent hfetches
  have hsum := congrArg List.length hcontent
  rw [List.length_append] at hsum
  have hle := hfetches.le_length
  -- all bytes have been read, as there are no more of them
  have hrest : rest = [] := List.length_eq_zero_iff.mp (by omega)
  rw [hrest, List.append_nil] at hcontent
  rw [hrest, List.nil_append, ← hcontent, hlength, Int.sub_self, Int.zero_bmod]
  exact ends_getVerdict_whole _ _

/-- A file of which the server has read too much. -/
theorem ends_iff_of_grown (hgrown : file.size < file.content.length)
    (buffer serverBuffer : ℕ → UInt8) :
    Ends (Downloaded file) (transferred md5 file buffer serverBuffer) ↔ ¬Misread file := by
  unfold transferred Misread
  rw [ends_fetchLoop_iff (blocked_serveVerdict _ _ _) (Nat.le_of_lt hgrown)]
  push Not
  refine forall_congr' fun pieces ↦ forall_congr' fun rest ↦ forall_congr' fun hcontent ↦
    forall_congr' fun hfetches ↦ ?_
  have hsum := congrArg List.length hcontent
  rw [List.length_append] at hsum
  have hless := hfetches.length_lt
  -- the difference of the sizes is small where the verdict is cut short
  have hshort (hrest : rest.length < 4) :
      Int.bmod (file.size - file.content.length) (2 ^ 32) ≠ 0 :=
    bmod_ne_zero (by omega) (by omega) (by omega)
  by_cases hrest : rest = []
  · refine iff_of_true ?_ fun hne ↦ absurd hrest hne
    rw [serveVerdict_of_ne (hshort (by rw [hrest]; decide)), hrest]
    refine (ends_left_iff (.send .refl)).mpr <| (ends_recvWhole_end_iff (by decide)).mpr <|
      ends_ret_iff.mpr ?_
    exact ⟨0, _, rfl, fun hlength ↦ absurd hlength (Nat.ne_of_gt hgrown), nofun⟩
  · have hstored : [] ++ pieces.flatten ≠ file.content := by
      intro hsame
      have hpos := List.length_pos_iff.mpr hrest
      rw [← hsame, List.nil_append] at hsum
      omega
    rw [ends_getVerdict_rest_iff (Nat.ne_of_gt hgrown) hstored hrest hshort, getInt_overlay]
    exact ⟨fun hne _ ↦ hne, fun hne ↦ hne hrest⟩

/-- A file that is not larger than its size is not misread. -/
theorem not_misread_of_le (hle : file.content.length ≤ file.size) : ¬Misread file := by
  rintro ⟨pieces, rest, hcontent, hfetches, hrest, -⟩
  have hsum := congrArg List.length hcontent
  rw [List.length_append] at hsum
  have hread := hfetches.le_length
  have hpos := List.length_pos_iff.mpr hrest
  omega

variable (md5 system exportdir name file) in
/-- A download is faithful, in all runs, exactly when the client cannot misread bytes of the file as
the verdict of the server. -/
theorem download_faithful_iff (hserved : system.served (servedPath exportdir name) = some file)
    (hpos : file.size ≠ 0) (hlt : file.size < 2 ^ 31) (clientBuffer serverBuffer : ℕ → UInt8) :
    Ends (Downloaded file) (downloadStart md5 system exportdir uploaddir request response name
        clientBuffer serverBuffer) ↔
      ¬Misread file := by
  obtain ⟨buffer, buffer', hstart⟩ := ends_downloadStart_iff md5 uploaddir request response hserved
    hpos hlt (Downloaded file) clientBuffer serverBuffer
  rw [hstart]
  rcases Nat.lt_trichotomy file.content.length file.size with hshrunk | hlength | hgrown
  · exact iff_of_true (ends_of_shrunk hlt hshrunk _ _) (not_misread_of_le (Nat.le_of_lt hshrunk))
  · exact iff_of_true (ends_of_unchanged hlength _ _) (not_misread_of_le (Nat.le_of_eq hlength))
  · exact ends_iff_of_grown hgrown _ _

end Download

section Samples

/-- A server of one file. -/
def serverOf (file : ServedFile) : System where
  openErrno _ := 0
  served _ := some file
  clock := (List.replicate 16 0, List.replicate 8 0)
  filesize _ := 0

/-- The file `a`, unchanged. -/
def unchangedFile : ServedFile where
  size := 1
  reads := [[97]]
  reads_bounds := by decide

/-- A file of one byte, to which five have been added when it is read. -/
def grownFile : ServedFile where
  size := 1
  reads := [[97, 98, 1, 0, 0, 0]]
  reads_bounds := by decide

theorem download_faithful_unchanged :
    Ends (Downloaded unchangedFile) (downloadStart sampleDigest (serverOf unchangedFile) none none
      none none note (fun _ ↦ 0) fun _ ↦ 0) :=
  (download_faithful_iff sampleDigest (serverOf unchangedFile) none none none none note
    unchangedFile rfl (by decide) (by decide) _ _).mpr (not_misread_of_le (by decide))

/-- The client reads two bytes where one is missing and finds the verdict in the next four: it
returns 1 with two of the six bytes. -/
theorem grown_file_is_misread :
    ¬Ends (Downloaded grownFile) (downloadStart sampleDigest (serverOf grownFile) none none none
      none note (fun _ ↦ 0) fun _ ↦ 0) := by
  obtain ⟨buffer, buffer', hstart⟩ := ends_downloadStart_iff sampleDigest none none none
    (show (serverOf grownFile).served (servedPath none note) = some grownFile from rfl) (by decide)
    (by decide) (Downloaded grownFile) (fun _ ↦ 0) fun _ ↦ 0
  rw [hstart, ends_iff_of_grown (by decide), not_not]
  exact ⟨[[97, 98]], [1, 0, 0, 0], rfl, ⟨by decide, nofun, by decide, rfl⟩, nofun, by decide⟩

end Samples

end Katmai.MiniFilexchg
