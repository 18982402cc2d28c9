import Katmai.StreamioV3.ServicePass
import Katmai.StreamioV3.Session

/-!
# The client and the server agree on the open file

`stiov3_openfile` numbers its opens, sends the number with the `OPENFILE` request and waits for the
size of the file. The server opens the file of the largest number it has seen, repeats its answer
for that number, and rejects smaller ones. The client takes the first reply to `OPENFILE` that comes
while it waits, without a look at its number, although it looks at the number of every other
datagram: a second copy of the reply to an earlier open gives it the size of the wrong file
(`late_reply_gives_wrong_size`).

`openAgreement_of_current_replies` shows that nothing else goes wrong. In every run in which the
replies that come while the client waits are replies to its present open, and the files are not
empty (a size of `0` is taken for a failure), `internal_reopen_file` ends with the result that the
server computed for the file named in that open. `Agreement` is the invariant: what is in flight
for a number is about the name of that number, or about a number the server has already passed.
-/

set_option autoImplicit false
set_option relaxedAutoImplicit false

namespace Katmai.StreamioV3

open Foundation StbChannel ClientChannel

/-- What `stbtbl_setfile` computes for a file: its size, or `-1`. -/
def Lookup.result : Lookup → ℤ
  | .noStat _ => -1
  | .noOpen _ => -1
  | .found file _ => file.size

/-- The largest open number that the server has accepted from the client with this `stbid`. -/
def accepted (stbid : ℤ) (ch : StbChannel) : ℕ :=
  if ch.stbid = stbid then ch.filecount else 0

/-! ### The server -/

/-- What `stbtbl_setfile` does with a request of the client: it repeats its answer, it rejects the
request, or it opens the file. -/
theorem setfile_cases (ch : StbChannel) (lookup : Lookup) {cnt : ℕ} (stbid : ℤ) (hcnt : 0 < cnt) :
    (ch.stbid = stbid ∧ ch.filecount = cnt ∧
      ch.setfile lookup cnt stbid = (⟨ch.filesize, some ch.err⟩, ch)) ∨
    (cnt < accepted stbid ch ∧ ch.setfile lookup cnt stbid = (⟨-1, none⟩, ch)) ∨
    (accepted stbid ch < cnt ∧ (ch.setfile lookup cnt stbid).1.filesize = lookup.result ∧
      (ch.setfile lookup cnt stbid).2.stbid = stbid ∧
      (ch.setfile lookup cnt stbid).2.filecount = cnt ∧
      (ch.setfile lookup cnt stbid).2.filesize = lookup.result) := by
  unfold StbChannel.setfile accepted
  by_cases hsame : ch.stbid = stbid ∧ ch.filecount = cnt
  · left
    rw [if_pos hsame]
    exact ⟨hsame.1, hsame.2, rfl⟩
  · by_cases hold : ch.stbid = stbid ∧ ch.filecount > cnt
    · right
      left
      rw [if_neg hsame, if_pos hold, if_pos hold.1]
      exact ⟨hold.2, rfl⟩
    · right
      right
      rw [if_neg hsame, if_neg hold]
      constructor
      · split_ifs with hid
        · have hne : ch.filecount ≠ cnt := fun heq ↦ hsame ⟨hid, heq⟩
          have hnot : ¬ ch.filecount > cnt := fun hgt ↦ hold ⟨hid, hgt⟩
          omega
        · exact hcnt
      · cases lookup with
        | noStat errno => exact ⟨rfl, rfl, rfl, rfl⟩
        | noOpen errno => exact ⟨rfl, rfl, rfl, rfl⟩
        | found file errno => exact ⟨rfl, rfl, rfl, rfl⟩

/-! ### The invariant -/

/-- What holds of a datagram in flight: a request carries the name of its number, or its number is
accepted already; a reply carries the result for the name of its number, or its number is passed. -/
def AnswerOk (fs : String → Lookup) (stbid : ℤ) (names : List (ℕ × String)) (filecnt bound : ℕ) :
    Message → Prop
  | .openfile cnt id file =>
    id = stbid ∧ 0 < cnt ∧ cnt ≤ filecnt ∧ ((cnt, file) ∈ names ∨ cnt ≤ bound)
  | .openReply cnt size _ _ =>
    cnt ≤ bound ∧ ((∃ file, (cnt, file) ∈ names ∧ size = (fs file).result) ∨ cnt < bound)
  | _ => True

/-- The invariant of the opens of a session. -/
structure Agreement (fs : String → Lookup) (stbid : ℤ) (s : Session) : Prop where
  stbid_eq : s.client.stbid = stbid
  names_range : ∀ cnt file, (cnt, file) ∈ s.names → 0 < cnt ∧ cnt ≤ s.client.filecnt
  names_unique : ∀ cnt file other, (cnt, file) ∈ s.names → (cnt, other) ∈ s.names → file = other
  names_size : ∀ cnt file, (cnt, file) ∈ s.names → (fs file).result ≠ 0
  accepted_le : accepted stbid s.server ≤ s.client.filecnt
  server_result : s.server.stbid = stbid →
    ∃ file, (s.server.filecount, file) ∈ s.names ∧ s.server.filesize = (fs file).result
  net : ∀ m ∈ s.net, AnswerOk fs stbid s.names s.client.filecnt (accepted stbid s.server) m
  started : s.client.phase ≠ .idle ∨ 0 < s.client.blockcnt →
    ∃ file, (s.client.filecnt, file) ∈ s.names
  request : (∃ file, (s.client.filecnt, file) ∈ s.names) →
    (s.client.filecnt, s.client.reopenFile) ∈ s.names ∨
      s.client.filecnt ≤ accepted stbid s.server
  answered : ∀ resume, s.client.phase = .opening resume → s.client.needFilesize = false →
    ∃ file, (s.client.filecnt, file) ∈ s.names ∧ s.client.filesize = (fs file).result
  opens : ∀ o ∈ s.opens, ∃ file, (o.filecnt, file) ∈ s.names ∧ o.filesize = (fs file).result

variable {fs : String → Lookup} {stbid : ℤ} {s s' : Session}

/-- More names, a larger present number and a larger accepted number change nothing for what is in
flight. -/
theorem AnswerOk.mono {names names' : List (ℕ × String)} {filecnt filecnt' bound bound' : ℕ}
    {m : Message} (hm : AnswerOk fs stbid names filecnt bound m) (hnames : names ⊆ names')
    (hfilecnt : filecnt ≤ filecnt') (hbound : bound ≤ bound') :
    AnswerOk fs stbid names' filecnt' bound' m := by
  cases m with
  | openfile cnt id file =>
    obtain ⟨hid, hpos, hle, hname | hold⟩ := hm
    · exact ⟨hid, hpos, hle.trans hfilecnt, Or.inl (hnames hname)⟩
    · exact ⟨hid, hpos, hle.trans hfilecnt, Or.inr (hold.trans hbound)⟩
  | openReply cnt size err file =>
    obtain ⟨hle, ⟨name, hname, hsize⟩ | hold⟩ := hm
    · exact ⟨hle.trans hbound, Or.inl ⟨name, hnames hname, hsize⟩⟩
    · exact ⟨hle.trans hbound, Or.inr (hold.trans_le hbound)⟩
  | fetch => exact trivial
  | fetchResponse => exact trivial
  | needReopen => exact trivial
  | data => exact trivial

/-- A step of the client that leaves the number, the name and the identity of its open alone. -/
theorem Agreement.of_client (hs : Agreement fs stbid s) {client : ClientChannel}
    (hstbid : client.stbid = s.client.stbid) (hfilecnt : client.filecnt = s.client.filecnt)
    (hrequest : (client.filecnt, client.reopenFile) ∈ s.names ∨
      client.filecnt ≤ accepted stbid s.server ∨ client.reopenFile = s.client.reopenFile)
    (hstarted : client.phase ≠ .idle ∨ 0 < client.blockcnt →
      s.client.phase ≠ .idle ∨ 0 < s.client.blockcnt)
    (hanswered : ∀ resume, client.phase = .opening resume → client.needFilesize = false →
      ∃ file, (client.filecnt, file) ∈ s.names ∧ client.filesize = (fs file).result) :
    Agreement fs stbid { s with client := client } where
  stbid_eq := hstbid.trans hs.stbid_eq
  names_range := by
    intro cnt file hname
    rw [hfilecnt]
    exact hs.names_range cnt file hname
  names_unique := hs.names_unique
  names_size := hs.names_size
  accepted_le := by
    rw [hfilecnt]
    exact hs.accepted_le
  server_result := hs.server_result
  net := by
    intro m hm
    rw [hfilecnt]
    exact hs.net m hm
  started := by
    intro hphase
    rw [hfilecnt]
    exact hs.started (hstarted hphase)
  request := by
    intro hname
    rcases hrequest with hnew | hold | hsame
    · exact Or.inl hnew
    · exact Or.inr hold
    · rw [hfilecnt] at hname
      rw [hfilecnt, hsame]
      exact hs.request hname
  answered := hanswered
  opens := hs.opens

/-- A step of the client that is not inside `internal_reopen_file` afterwards. -/
theorem Agreement.of_not_opening (hs : Agreement fs stbid s) {client : ClientChannel}
    (hstbid : client.stbid = s.client.stbid) (hfilecnt : client.filecnt = s.client.filecnt)
    (hfile : client.reopenFile = s.client.reopenFile)
    (hstarted : client.phase ≠ .idle ∨ 0 < client.blockcnt →
      s.client.phase ≠ .idle ∨ 0 < s.client.blockcnt)
    (hphase : ∀ resume, client.phase ≠ .opening resume) :
    Agreement fs stbid { s with client := client } :=
  hs.of_client hstbid hfilecnt (Or.inr (Or.inr hfile)) hstarted
    fun resume hopening ↦ absurd hopening (hphase resume)

/-- Sending more datagrams that are in order. -/
theorem Agreement.send (hs : Agreement fs stbid s) {more : List Message}
    (hmore : ∀ m ∈ more, AnswerOk fs stbid s.names s.client.filecnt (accepted stbid s.server) m) :
    Agreement fs stbid { s with net := s.net ++ more } := by
  refine ⟨hs.stbid_eq, hs.names_range, hs.names_unique, hs.names_size, hs.accepted_le,
    hs.server_result, fun m hm ↦ ?_, hs.started, hs.request, hs.answered, hs.opens⟩
  rcases List.mem_append.mp hm with hold | hnew
  · exact hs.net m hold
  · exact hmore m hnew

/-- A step of the server that leaves its file alone. -/
theorem Agreement.of_server (hs : Agreement fs stbid s) {server : StbChannel}
    (hstbid : server.stbid = s.server.stbid) (hfilecount : server.filecount = s.server.filecount)
    (hfilesize : server.filesize = s.server.filesize) :
    Agreement fs stbid { s with server := server } := by
  have haccepted : accepted stbid server = accepted stbid s.server := by
    unfold accepted
    rw [hstbid, hfilecount]
  constructor
  · exact hs.stbid_eq
  · exact hs.names_range
  · exact hs.names_unique
  · exact hs.names_size
  · exact haccepted.symm ▸ hs.accepted_le
  · intro hid
    rw [hfilecount, hfilesize]
    exact hs.server_result (hstbid.symm.trans hid)
  · intro m hm
    rw [haccepted]
    exact hs.net m hm
  · exact hs.started
  · intro hname
    rw [haccepted]
    exact hs.request hname
  · exact hs.answered
  · exact hs.opens

/-- Writing in the books. -/
theorem Agreement.of_books (hs : Agreement fs stbid s) {opens : List OpenReturn}
    (hopens : ∀ o ∈ opens, ∃ file, (o.filecnt, file) ∈ s.names ∧ o.filesize = (fs file).result)
    (returned : List BlockReturn) :
    Agreement fs stbid { s with opens := opens, returned := returned } :=
  ⟨hs.stbid_eq, hs.names_range, hs.names_unique, hs.names_size, hs.accepted_le, hs.server_result,
    hs.net, hs.started, hs.request, hs.answered, hopens⟩

/-! ### Opens -/

/-- `stiov3_openfile` begins a new number. -/
theorem Agreement.openfile (hs : Agreement fs stbid s) {fname : String}
    (hlength : fname.utf8ByteSize ≤ 100) (hwrap : s.client.filecnt + 1 < 2 ^ 32)
    (hsize : (fs fname).result ≠ 0) :
    Agreement fs stbid
      { s with
        client := s.client.stiov3Openfile fname
        names := s.names ++ [((s.client.stiov3Openfile fname).filecnt, fname)] } := by
  have hopen : s.client.stiov3Openfile fname = ({ s.client with
      filecnt := s.client.filecnt + 1
      reopenFile := fname
      mayNeedFixFilename := s.client.channel = 0
      cut := false } : ClientChannel).stiov3Reopen.beginReopen none := by
    unfold stiov3Openfile
    rw [if_neg (by omega), Nat.mod_eq_of_lt hwrap]
  rw [hopen]
  have hfresh : (s.client.filecnt + 1, fname) ∈ s.names ++ [(s.client.filecnt + 1, fname)] :=
    List.mem_append_right _ (List.mem_singleton_self _)
  have hsplit : ∀ cnt file, (cnt, file) ∈ s.names ++ [(s.client.filecnt + 1, fname)] →
      (cnt, file) ∈ s.names ∨ cnt = s.client.filecnt + 1 ∧ file = fname := by
    intro cnt file hmem
    rcases List.mem_append.mp hmem with hold | hnew
    · exact Or.inl hold
    · exact Or.inr (Prod.mk.inj (List.mem_singleton.mp hnew))
  constructor
  · exact hs.stbid_eq
  · intro cnt file hmem
    show 0 < cnt ∧ cnt ≤ s.client.filecnt + 1
    rcases hsplit cnt file hmem with hold | ⟨rfl, -⟩
    · have hrange := hs.names_range cnt file hold
      omega
    · omega
  · intro cnt file other hfile hother
    rcases hsplit cnt file hfile with hold | ⟨rfl, rfl⟩
    · rcases hsplit cnt other hother with hold' | ⟨rfl, -⟩
      · exact hs.names_unique cnt file other hold hold'
      · have hrange := hs.names_range _ file hold
        omega
    · rcases hsplit _ other hother with hold' | ⟨-, rfl⟩
      · have hrange := hs.names_range _ other hold'
        omega
      · rfl
  · intro cnt file hmem
    rcases hsplit cnt file hmem with hold | ⟨-, rfl⟩
    · exact hs.names_size cnt file hold
    · exact hsize
  · exact hs.accepted_le.trans (Nat.le_succ _)
  · intro hid
    obtain ⟨file, hname, hresult⟩ := hs.server_result hid
    exact ⟨file, List.mem_append_left _ hname, hresult⟩
  · intro m hm
    exact (hs.net m hm).mono (List.subset_append_left _ _) (Nat.le_succ _) (le_refl _)
  · intro _
    exact ⟨fname, hfresh⟩
  · intro _
    exact Or.inl hfresh
  · rintro resume - hneed
    cases hneed
  · intro o ho
    obtain ⟨file, hname, hresult⟩ := hs.opens o ho
    exact ⟨file, List.mem_append_left _ hname, hresult⟩

/-- `internal_reopen_file` returns. -/
theorem Agreement.endReopen (hs : Agreement fs stbid s) {resume : Option Reading}
    (hphase : s.client.phase = .opening resume) :
    Agreement fs stbid { s with client := s.client.endReopen resume } := by
  have hbusy : s.client.phase ≠ .idle := hphase.trans_ne nofun
  unfold ClientChannel.endReopen
  split_ifs
  · cases resume with
    | none => exact hs.of_not_opening rfl rfl rfl (fun _ ↦ Or.inl hbusy) nofun
    | some r => exact hs.of_not_opening rfl rfl rfl (fun _ ↦ Or.inl hbusy) nofun
  · cases resume with
    | none => exact hs.of_not_opening rfl rfl rfl (fun _ ↦ Or.inl hbusy) nofun
    | some r => exact hs.of_not_opening rfl rfl rfl (fun _ ↦ Or.inl hbusy) nofun

/-- The server handles an `OPENFILE` of the session. -/
theorem Agreement.serve_openfile (hs : Agreement fs stbid s) {cnt : ℕ} {id : ℤ} {file : String}
    (hm : AnswerOk fs stbid s.names s.client.filecnt (accepted stbid s.server)
      (.openfile cnt id file)) (err : ℤ) (realFile : String) :
    Agreement fs stbid
      { s with
        server := (s.server.setfile (fs file) cnt id).2
        net := s.net ++
          [.openReply cnt (s.server.setfile (fs file) cnt id).1.filesize err realFile] } := by
  obtain ⟨rfl, hpos, hle, hnamed⟩ := hm
  rcases setfile_cases s.server (fs file) id hpos with
    ⟨hid, hsame, hresult⟩ | ⟨hold, hresult⟩ | ⟨hnew, hsize, hid, hcount, hfilesize⟩
  · rw [hresult]
    refine hs.send fun m hm ↦ ?_
    obtain rfl := List.mem_singleton.mp hm
    obtain ⟨name, hname, hstored⟩ := hs.server_result hid
    have haccepted : accepted id s.server = cnt := by
      rw [accepted, if_pos hid]
      exact hsame
    rw [hsame] at hname
    exact ⟨haccepted.symm ▸ le_refl cnt, Or.inl ⟨name, hname, hstored⟩⟩
  · rw [hresult]
    refine hs.send fun m hm ↦ ?_
    obtain rfl := List.mem_singleton.mp hm
    exact ⟨le_of_lt hold, Or.inr hold⟩
  · have hname : (cnt, file) ∈ s.names := hnamed.resolve_right (by omega)
    have haccepted : accepted id (s.server.setfile (fs file) cnt id).2 = cnt := by
      rw [accepted, if_pos hid]
      exact hcount
    constructor
    · exact hs.stbid_eq
    · exact hs.names_range
    · exact hs.names_unique
    · exact hs.names_size
    · exact haccepted.symm ▸ hle
    · intro _
      rw [hcount]
      exact ⟨file, hname, hfilesize⟩
    · intro m hm
      rw [haccepted]
      rcases List.mem_append.mp hm with hin | hreply
      · exact (hs.net m hin).mono (List.Subset.refl _) (le_refl _) (le_of_lt hnew)
      · obtain rfl := List.mem_singleton.mp hreply
        exact ⟨le_refl cnt, Or.inl ⟨file, hname, hsize⟩⟩
    · exact hs.started
    · intro hopen
      rw [haccepted]
      rcases hs.request hopen with hrequest | hdone
      · exact Or.inl hrequest
      · exact Or.inr (hdone.trans (le_of_lt hnew))
    · exact hs.answered
    · exact hs.opens

/-- The server handles a datagram of the session. -/
theorem Agreement.toServer (hs : Agreement fs stbid s) {m : Message}
    (hm : AnswerOk fs stbid s.names s.client.filecnt (accepted stbid s.server) m)
    (env : ServerEnv) :
    Agreement fs stbid
      { s with
        server := (streamioV3Main fs env s.server m).1
        net := s.net ++ (streamioV3Main fs env s.server m).2 } := by
  have hnothing : Agreement fs stbid { s with net := s.net ++ [] } := hs.send nofun
  cases m with
  | openfile cnt id file => exact hs.serve_openfile hm _ _
  | fetch fast cnt block qos map =>
    cases fast with
    | true => exact hnothing
    | false =>
      simp only [streamioV3Main]
      split_ifs
      · have hserver : Agreement fs stbid { s with server := s.server.setrequest block map qos } :=
          hs.of_server rfl rfl rfl
        refine hserver.send fun m hm ↦ ?_
        obtain rfl := List.mem_singleton.mp hm
        exact trivial
      · refine hs.send fun m hm ↦ ?_
        obtain rfl := List.mem_singleton.mp hm
        exact trivial
  | openReply => exact hnothing
  | fetchResponse => exact hnothing
  | needReopen => exact hnothing
  | data => exact hnothing

/-- A reply to the present open, taken while it is waited for, carries the result for its name. -/
theorem Agreement.storeFilesize (hs : Agreement fs stbid s) {cnt : ℕ} {size err : ℤ}
    {file : String}
    (hm : AnswerOk fs stbid s.names s.client.filecnt (accepted stbid s.server)
      (.openReply cnt size err file))
    (hcurrent : s.client.needFilesize = true → cnt = s.client.filecnt) :
    Agreement fs stbid { s with client := s.client.storeFilesize size err file } := by
  by_cases hneed : s.client.needFilesize = true
  · obtain rfl := hcurrent hneed
    obtain ⟨hbound, hresult⟩ := hm
    have hle := hs.accepted_le
    obtain ⟨name, hname, rfl⟩ := hresult.resolve_right (by omega)
    obtain ⟨fixing, reopenFile, hstored⟩ := storeFilesize_of_needed hneed (fs name).result err file
    rw [hstored]
    refine hs.of_client rfl rfl (Or.inr (Or.inl hbound)) (fun hphase ↦ hphase) fun _ _ _ ↦ ?_
    exact ⟨name, hname, if_neg (hs.names_size _ name hname)⟩
  · rw [storeFilesize_of_not_needed (by simpa using hneed)]
    exact hs.of_client rfl rfl (Or.inr (Or.inr rfl)) (fun hphase ↦ hphase) hs.answered

/-- A reply to `OPENFILE` that is taken is a reply to the present open. -/
def CurrentReply (cl : ClientChannel) : Message → Prop
  | .openReply cnt _ _ _ => cl.needFilesize = true → cnt = cl.filecnt
  | _ => True

/-- The client handles a datagram of the session. -/
theorem Agreement.toClient (hs : Agreement fs stbid s) {m : Message}
    (hm : AnswerOk fs stbid s.names s.client.filecnt (accepted stbid s.server) m)
    (hcurrent : CurrentReply s.client m) :
    Agreement fs stbid { s with client := s.client.streamioV3Response m } := by
  have hframe : ∀ client : ClientChannel, client.stbid = s.client.stbid →
      client.filecnt = s.client.filecnt → client.reopenFile = s.client.reopenFile →
      client.phase = s.client.phase → client.blockcnt = s.client.blockcnt →
      client.needFilesize = s.client.needFilesize → client.filesize = s.client.filesize →
      Agreement fs stbid { s with client := client } := by
    intro client hstbid hfilecnt hfile hphase hblockcnt hneed hfilesize
    refine hs.of_client hstbid hfilecnt (Or.inr (Or.inr hfile)) ?_ ?_
    · rw [hphase, hblockcnt]
      exact fun hstarted ↦ hstarted
    · rw [hphase, hneed, hfilesize, hfilecnt]
      exact hs.answered
  cases m with
  | openReply cnt size err file =>
    exact hs.storeFilesize hm hcurrent
  | fetchResponse cnt block =>
    simp only [ClientChannel.streamioV3Response]
    split_ifs
    · exact hframe _ rfl rfl rfl rfl rfl rfl rfl
    · exact hs
  | needReopen cnt block =>
    simp only [ClientChannel.streamioV3Response]
    split_ifs
    · exact hframe _ rfl rfl rfl rfl rfl rfl rfl
    · exact hs
  | data cnt block packet =>
    simp only [ClientChannel.streamioV3Response]
    split_ifs
    · unfold storePacket
      split_ifs
      · exact hframe _ rfl rfl rfl rfl rfl rfl rfl
      · exact hframe _ rfl rfl rfl rfl rfl rfl rfl
    · exact hs
  | openfile => exact hs
  | fetch => exact hs

/-! ### Every step -/

/-- The condition on the steps of a run: a file that is opened is not empty and its number does not
wrap around, and a reply to `OPENFILE` that comes while one is waited for is a reply to the present
open. -/
def RepliesAreCurrent (fs : String → Lookup) (s : Session) : SessionEvent → Prop
  | .openfile fname => s.client.filecnt + 1 < 2 ^ 32 ∧ (fs fname).result ≠ 0
  | .toClient k => ∀ m ∈ s.net[k]?, CurrentReply s.client m
  | _ => True

instance (cl : ClientChannel) : ∀ m, Decidable (CurrentReply cl m)
  | .openReply cnt _ _ _ =>
    inferInstanceAs (Decidable (cl.needFilesize = true → cnt = cl.filecnt))
  | .openfile .. | .fetch .. | .fetchResponse .. | .needReopen .. | .data .. => .isTrue trivial

instance (fs : String → Lookup) (s : Session) : ∀ event, Decidable (RepliesAreCurrent fs s event)
  | .openfile fname =>
    inferInstanceAs (Decidable (s.client.filecnt + 1 < 2 ^ 32 ∧ (fs fname).result ≠ 0))
  | .toClient k => inferInstanceAs (Decidable (∀ m ∈ s.net[k]?, CurrentReply s.client m))
  | .sendOpen | .reopenReturn | .abort | .cutReturn | .reopenNeeded | .seek _ | .reopen
  | .startRead | .sendFetch | .responseSeen | .fastFetch | .finishRead | .toServer _ _
  | .service _ => .isTrue trivial

theorem agreement_sessionStep {event : SessionEvent} (hs : Agreement fs stbid s)
    (hgood : RepliesAreCurrent fs s event) (hstep : sessionStep fs s event = some s') :
    Agreement fs stbid s' := by
  cases event with
  | openfile fname =>
    simp only [sessionStep, Option.ite_none_right_eq_some, Option.some.injEq] at hstep
    obtain ⟨hcall, rfl⟩ := hstep
    exact hs.openfile hcall.2 hgood.1 hgood.2
  | sendOpen =>
    obtain ⟨resume, hphase, rfl⟩ := sessionStep_sendOpen.mp hstep
    refine hs.send fun m hm ↦ ?_
    obtain rfl := List.mem_singleton.mp hm
    obtain ⟨file, hname⟩ := hs.started (Or.inl (hphase.trans_ne Phase.noConfusion))
    exact ⟨hs.stbid_eq, (hs.names_range _ file hname).1, le_refl _, hs.request ⟨file, hname⟩⟩
  | reopenReturn =>
    obtain ⟨resume, hphase, hneed, rfl⟩ := sessionStep_reopenReturn.mp hstep
    have hclient := hs.endReopen hphase
    refine hclient.of_books (fun o ho ↦ ?_) s.returned
    rcases List.mem_append.mp ho with hold | hnew
    · exact hs.opens o hold
    · obtain rfl := List.mem_singleton.mp hnew
      exact hs.answered resume hphase hneed
  | abort =>
    cases hstep
    exact hs.of_client rfl rfl (Or.inr (Or.inr rfl)) (fun hphase ↦ hphase) hs.answered
  | cutReturn =>
    simp only [sessionStep, Option.ite_none_right_eq_some, Option.some.injEq] at hstep
    obtain ⟨hcut, rfl⟩ := hstep
    exact hs.of_not_opening rfl rfl rfl (fun _ ↦ Or.inl hcut.2) fun _ ↦ Phase.noConfusion
  | reopenNeeded =>
    obtain ⟨-, resume, hphase, rfl⟩ := sessionStep_reopenNeeded.mp hstep
    refine hs.of_client rfl rfl (Or.inr (Or.inr rfl)) (fun _ ↦ Or.inl ?_)
      fun _ _ hneed ↦ Bool.noConfusion hneed
    rcases hphase with hphase | ⟨r, hphase, -⟩
    · exact hphase.trans_ne Phase.noConfusion
    · exact hphase.trans_ne Phase.noConfusion
  | seek pos =>
    simp only [sessionStep, Option.ite_none_right_eq_some, Option.some.injEq] at hstep
    obtain ⟨-, rfl⟩ := hstep
    exact hs.of_client rfl rfl (Or.inr (Or.inr rfl)) (fun hphase ↦ hphase) hs.answered
  | reopen =>
    simp only [sessionStep, Option.ite_none_right_eq_some, Option.some.injEq] at hstep
    obtain ⟨-, rfl⟩ := hstep
    exact hs.of_client rfl rfl (Or.inr (Or.inr rfl)) (fun hphase ↦ hphase) hs.answered
  | startRead =>
    simp only [sessionStep, Option.ite_none_right_eq_some, Option.some.injEq] at hstep
    obtain ⟨-, rfl⟩ := hstep
    unfold beginRead
    split_ifs with hpast
    · exact hs
    · exact hs.of_not_opening rfl rfl rfl (fun _ ↦ Or.inr (by omega)) fun _ ↦ Phase.noConfusion
  | sendFetch =>
    obtain ⟨r, -, rfl⟩ := sessionStep_sendFetch.mp hstep
    refine hs.send fun m hm ↦ ?_
    obtain rfl := List.mem_singleton.mp hm
    exact trivial
  | responseSeen =>
    obtain ⟨r, hphase, -, rfl⟩ := sessionStep_responseSeen.mp hstep
    exact hs.of_not_opening rfl rfl rfl (fun _ ↦ Or.inl (hphase.trans_ne Phase.noConfusion))
      fun _ ↦ Phase.noConfusion
  | fastFetch =>
    obtain ⟨r, -, -, rfl⟩ := sessionStep_fastFetch.mp hstep
    exact hs.of_client rfl rfl (Or.inr (Or.inr rfl)) (fun hphase ↦ hphase) hs.answered
  | finishRead =>
    obtain ⟨r, hphase, -, rfl⟩ := sessionStep_finishRead.mp hstep
    have hclient : Agreement fs stbid { s with client := s.client.endRead } :=
      hs.of_not_opening rfl rfl rfl (fun _ ↦ Or.inl (hphase.trans_ne Phase.noConfusion))
        fun _ ↦ Phase.noConfusion
    exact hclient.of_books hs.opens _
  | toServer k env =>
    obtain ⟨m, hm, rfl⟩ := sessionStep_toServer.mp hstep
    exact hs.toServer (hs.net m (List.mem_of_getElem? hm)) env
  | toClient k =>
    obtain ⟨m, hm, rfl⟩ := sessionStep_toClient.mp hstep
    exact hs.toClient (hs.net m (List.mem_of_getElem? hm)) (hgood m hm)
  | service short =>
    cases hstep
    have hsame := sameRequest_read s.server short
    obtain ⟨mapi, hfinal⟩ := (servicePass_packets s.server short).2
    have hserver : Agreement fs stbid { s with server := (s.server.servicePass short).2 } := by
      rw [hfinal]
      exact hs.of_server hsame.stbid_eq hsame.filecount_eq hsame.filesize_eq
    refine hserver.send fun m hm ↦ ?_
    obtain ⟨packet, -, rfl⟩ := List.mem_map.mp hm
    exact trivial

/-! ### Sessions from the start -/

/-- A new client channel, with a server entry that no open of this client has reached yet. -/
def newSession (client : ClientChannel) (server : StbChannel) : Session where
  client := client
  server := server
  net := []
  returned := []
  opens := []
  names := []

theorem agreement_newSession (channel : ℕ) (stbid : ℤ) (memory : ClientChannel)
    {server : StbChannel} (hserver : server.stbid ≠ stbid) :
    Agreement fs stbid (newSession (newClientChannel channel stbid memory) server) where
  stbid_eq := rfl
  names_range := nofun
  names_unique := nofun
  names_size := nofun
  accepted_le := by
    show accepted stbid server ≤ 0
    rw [accepted, if_neg hserver]
  server_result := fun hid ↦ absurd hid hserver
  net := nofun
  started := by
    rintro (hphase | hblockcnt)
    · exact absurd rfl hphase
    · exact absurd hblockcnt (lt_irrefl 0)
  request := nofun
  answered := nofun
  opens := nofun

/-- For every sequence of opens, reads and seeks of a new client channel and every delay, loss,
duplication and reordering of the datagrams: if every reply to `OPENFILE` that comes while one is
waited for is a reply to the present open, and the files are not empty, then whenever
`internal_reopen_file` returns for open number `c` the client's file size is the result that the
server computes for the name of open number `c`. -/
theorem openAgreement_of_current_replies (fs : String → Lookup) (channel : ℕ) (stbid : ℤ)
    (memory : ClientChannel) (server : StbChannel) (hserver : server.stbid ≠ stbid)
    (events : List SessionEvent)
    (hcurrent : Meets (sessionStep fs) (RepliesAreCurrent fs)
      (newSession (newClientChannel channel stbid memory) server) events) {t : Session}
    (hrun :
      run (sessionStep fs) (newSession (newClientChannel channel stbid memory) server) events =
      some t) :
    ∀ o ∈ t.opens, ∃ file, (o.filecnt, file) ∈ t.names ∧
      (∀ other, (o.filecnt, other) ∈ t.names → other = file) ∧
      o.filesize = (fs file).result := by
  have ht : Agreement fs stbid t :=
    run_invariant_of_meets (fun _ _ _ hs hgood hstep ↦ agreement_sessionStep hs hgood hstep)
      (agreement_newSession channel stbid memory hserver) hcurrent hrun
  intro o ho
  obtain ⟨file, hname, hresult⟩ := ht.opens o ho
  exact ⟨file, hname, fun other hother ↦ ht.names_unique _ other file hother hname, hresult⟩

/-- A file system with a file of 10 bytes under the name `a` and one of 20 under the name `b`. -/
def twoFiles (name : String) : Lookup :=
  if name = "a" then .found ⟨10, by decide, fun _ ↦ 1⟩ 0
  else if name = "b" then .found ⟨20, by decide, fun _ ↦ 2⟩ 0
  else .noStat 2

/-- A new client channel and a new entry. -/
def twoFilesSession : Session :=
  newSession
    (newClientChannel 1 5
      { channel := 0, stbid := 0, cut := false, qosThreshold := 60, filecnt := 0, blockwant := 0,
        blockcnt := 0, filesize := 0, needFilesize := false, needReopen := false, openErrno := 0,
        vodsvrResponse := false, brcvcnt := 0, bufok := fun _ ↦ false, bbuf := fun _ ↦ 0,
        requestBlock := 0, qos := 0, map := fun _ ↦ 0, fast := false, reopenFile := "",
        mayNeedFixFilename := false, phase := .idle })
    newStbChannel

/-- Both files are opened; the request for the second is sent twice, and the request for the first
comes a second time in between and is rejected. -/
def twoOpensRun : List SessionEvent :=
  [.openfile "a", .sendOpen, .toServer 0 ⟨"", 0⟩, .toClient 1, .reopenReturn, .openfile "b",
    .sendOpen, .sendOpen, .toServer 2 ⟨"", 0⟩, .toServer 0 ⟨"", 0⟩, .toServer 3 ⟨"", 0⟩,
    .toClient 6, .reopenReturn, .toClient 5]

theorem openAgreement_of_current_replies_twoOpens :
    ∃ t, run (sessionStep twoFiles) twoFilesSession twoOpensRun = some t ∧
      t.opens = [⟨1, 10⟩, ⟨2, 20⟩] ∧
      ∀ o ∈ t.opens, ∃ file, (o.filecnt, file) ∈ t.names ∧ o.filesize = (twoFiles file).result := by
  have hcurrent : Meets (sessionStep twoFiles) (RepliesAreCurrent twoFiles) twoFilesSession
      twoOpensRun := by decide +kernel
  have hopens : (run (sessionStep twoFiles) twoFilesSession twoOpensRun).map
      (fun t ↦ t.opens) = some [⟨1, 10⟩, ⟨2, 20⟩] := by decide +kernel
  obtain ⟨t, hrun, hreturned⟩ := Option.map_eq_some_iff.mp hopens
  refine ⟨t, hrun, hreturned, fun o ho ↦ ?_⟩
  obtain ⟨file, hname, -, hresult⟩ :=
    openAgreement_of_current_replies twoFiles 1 5 _ newStbChannel (by decide) twoOpensRun hcurrent
      hrun o ho
  exact ⟨file, hname, hresult⟩

/-- The reply to the first open comes a second time while the second is waited for: the client ends
its second open with the size of the first file. -/
theorem late_reply_gives_wrong_size :
    (run (sessionStep twoFiles) twoFilesSession
      [.openfile "a", .sendOpen, .toServer 0 ⟨"", 0⟩, .toClient 1, .reopenReturn, .openfile "b",
        .sendOpen, .toClient 1, .reopenReturn]).map (fun t ↦ (t.opens, t.names)) =
      some ([⟨1, 10⟩, ⟨2, 10⟩], [(1, "a"), (2, "b")]) ∧
    (twoFiles "b").result = 20 := by
  decide +kernel

end Katmai.StreamioV3
