import Katmai.Foundation.EventRun
import Katmai.Udplib.UdpTable
import Katmai.VodTable.VodTable

/-!
# The choice of a server by a `streamio_v3` client

A client has a current server, and servers fall into classes by their address
(`ntohl (addr) % prefsvr_divider`), one of which is preferred. `streamio_v3_response` handles the
replies of servers: `FINDSERVER` may be answered with a `REGIST`, and a `REGIST` reply may make its
sender the current server. `Chooses` says what they should do while there is a current server.

Both cases compare the class of the sender with the class of the current server instead of the
preferred one. So with a current server that is not of the preferred class, a preferred server is
never asked (`onFindserver_fst`), while any other server of the class of the current one replaces it
(`onRegist_replaces`). `meets_chooses_iff` says that the client chooses as it should exactly in the
runs where neither kind of reply comes (`Undisturbed`).
-/

set_option autoImplicit false
set_option relaxedAutoImplicit false

namespace Katmai.StreamioV3

open FileServer Foundation Udplib VodTable

/-! ### The client -/

/-- The fields of `struct streamming_io_v3_client_pd_t` for the choice of a server, with the table
of servers and the address table of `udplib`. -/
structure ServerChoice where
  vodsvr : Vodtab
  udp : UdpTable
  currentVodServer : ℤ
  haveVodServer : Bool
  qosThreshold : ℤ
  serverPort : ℕ
  fileServer : ℤ
  currSvrId : ℤ
  prefsvrId : ℤ
  prefsvrDivider : ℤ

/-- `ntohl`, on a little-endian machine. -/
def ntohl (x : ℕ) : ℕ :=
  x % 256 * 2 ^ 24 + x / 2 ^ 8 % 256 * 2 ^ 16 + x / 2 ^ 16 % 256 * 2 ^ 8 + x / 2 ^ 24 % 256

/-- `ntohs`, on a little-endian machine. -/
def ntohs (x : ℕ) : ℕ :=
  x % 256 * 2 ^ 8 + x / 2 ^ 8 % 256

namespace ServerChoice

/-- `ntohl (addr) % prefsvr_divider`. -/
def svrClass (c : ServerChoice) (addr : ℕ) : ℤ :=
  ((ntohl addr % c.prefsvrDivider.toNat : ℕ) : ℤ)

/-- `stiov3_set_prefer_server`, for a client with the address `myself`. -/
def stiov3SetPreferServer (c : ServerChoice) (myself : ℕ) (id divider : ℤ) : ServerChoice :=
  if 0 ≤ id ∧ id < divider then { c with prefsvrId := id, prefsvrDivider := divider }
  else if id = divider ∧ 0 < id then
    { c with
      prefsvrId := ((ntohl myself % divider.toNat : ℕ) : ℤ)
      prefsvrDivider := divider }
  else c

/-- What `new_streamming_io_v3_client` leaves for a client with the address `myself`. -/
def newClient (myself : ℕ) : ServerChoice :=
  stiov3SetPreferServer
    (stiov3SetPreferServer ⟨newVodsvr 16, newUdplib 16, -1, false, 0, 0, 0, -1, 0, 0⟩ myself 0 1)
    myself 2 2

/-- `udp->udp_port (udp, i)`. -/
def udpPort (c : ServerChoice) (i : ℤ) : ℕ :=
  if 0 ≤ i ∧ i < c.udp.listcnt then ntohs (c.udp.addrlist i.toNat).port else 0

/-- The case `FINDSERVER` of `streamio_v3_response`, for a reply from `source`: the `REGIST` that is
sent, if one is, goes to `source`. -/
def onFindserver (c : ServerChoice) (source : Address) : Bool × ServerChoice :=
  let added := c.vodsvr.vodsvrAdd source.ip
  let c := { c with vodsvr := added.2 }
  if added.1 < 0 then (false, c)
  else if c.currentVodServer < 0 then (true, c)
  else if c.currSvrId ≠ c.prefsvrId then (c.currSvrId == c.svrClass source.ip, c)
  else (false, c)

/-- The assignments that make entry `vi` the current server. -/
def setCurrent (c : ServerChoice) (vi i : ℤ) (source : Address) (threshold : ℤ) : ServerChoice :=
  { c with
    currentVodServer := vi
    haveVodServer := true
    qosThreshold := threshold
    serverPort := c.udpPort i
    fileServer := c.svrClass source.ip
    currSvrId := c.svrClass source.ip }

/-- The case `REGIST` of `streamio_v3_response`, for a reply from `source` with the session number
`sn`. -/
def onRegist (c : ServerChoice) (source : Address) (sn threshold : ℤ) : ServerChoice :=
  let peer := c.udp.udplibRegistRmaddr source
  let noted := c.vodsvr.vodsvrSetRegistcode source.ip sn peer.1
  let c := { c with udp := peer.2, vodsvr := noted.2 }
  if c.currentVodServer < 0 then c.setCurrent noted.1 peer.1 source threshold
  else if c.currSvrId ≠ c.prefsvrId ∧ c.currSvrId = c.svrClass source.ip then
    c.setCurrent noted.1 peer.1 source threshold
  else c

/-- The case `NEED_REGIST` of `streamio_v3_response`, for a message from `source`. -/
def onNeedRegist (c : ServerChoice) (source : Address) : ServerChoice :=
  let added := c.vodsvr.vodsvrAdd source.ip
  let c := { c with vodsvr := added.2 }
  if c.currentVodServer = added.1 then
    { c with
      vodsvr := (c.vodsvr.vodsvrUnsetRegistcode added.1).2
      currentVodServer := -1
      haveVodServer := false }
  else c

/-- `unset_VODserver`. -/
def unsetVodServer (c : ServerChoice) : ServerChoice :=
  if 0 ≤ c.currentVodServer then
    { c with
      vodsvr := (c.vodsvr.vodsvrUnsetRegistcode c.currentVodServer).2
      currentVodServer := -1
      haveVodServer := false
      currSvrId := -1 }
  else c

/-- The address of the current server. -/
def currentServer (c : ServerChoice) : Option ℕ :=
  if 0 ≤ c.currentVodServer ∧ c.currentVodServer < c.vodsvr.count then
    (c.vodsvr.vodtab c.currentVodServer.toNat).key
  else none

end ServerChoice

/-! ### Runs -/

/-- What the client can receive and do about its server: replies from any server, and
`unset_VODserver` when one does not answer. -/
inductive ServerEvent
  | findserver (source : Address)
  | regist (source : Address) (sn threshold : ℤ)
  | needRegist (source : Address)
  | unset

/-- The client, and the servers of the preferred class that have answered `FINDSERVER` while the
current server was of another class. -/
structure Chooser where
  client : ServerChoice
  asked : List ℕ

/-- `source` is of the preferred class and the current server is not. -/
def ServerChoice.isBetter (c : ServerChoice) (source : Address) : Bool :=
  c.currentServer.any (fun addr ↦ c.svrClass addr != c.prefsvrId) &&
    c.svrClass source.ip == c.prefsvrId

/-- One event. -/
def choiceStep (s : Chooser) : ServerEvent → Option Chooser
  | .findserver source => some
    { client := (s.client.onFindserver source).2
      asked := if s.client.isBetter source then source.ip :: s.asked else s.asked }
  | .regist source sn threshold => some { s with client := s.client.onRegist source sn threshold }
  | .needRegist source => some { s with client := s.client.onNeedRegist source }
  | .unset => some { s with client := s.client.unsetVodServer }

/-- A new client after calls of `set_prefer_server`. -/
def startChoice (myself : ℕ) (prefer : List (ℤ × ℤ)) : Chooser where
  client := prefer.foldl (fun c call ↦ c.stiov3SetPreferServer myself call.1 call.2)
    (ServerChoice.newClient myself)
  asked := []

/-- What a reply should do while there is a current server: if it is from a server that is not of
the preferred class, the current server stays. If the current server is not of the preferred class,
`FINDSERVER` from a server that is makes the client send it a `REGIST`, and the `REGIST` reply that
follows makes that server current. -/
def Chooses (s : Chooser) (e : ServerEvent) : Prop :=
  ∀ addr, s.client.currentServer = some addr →
    match e with
    | .findserver source =>
      (s.client.svrClass source.ip ≠ s.client.prefsvrId →
        (s.client.onFindserver source).2.currentVodServer = s.client.currentVodServer) ∧
      (s.client.svrClass addr ≠ s.client.prefsvrId →
        s.client.svrClass source.ip = s.client.prefsvrId →
        (s.client.onFindserver source).1 = true)
    | .regist source sn threshold =>
      (s.client.svrClass source.ip ≠ s.client.prefsvrId →
        (s.client.onRegist source sn threshold).currentVodServer = s.client.currentVodServer) ∧
      (s.client.svrClass addr ≠ s.client.prefsvrId → source.ip ∈ s.asked →
        (s.client.onRegist source sn threshold).currentServer = some source.ip)
    | _ => True

/-- While the current server is not of the preferred class, no `FINDSERVER` comes from a server of
the preferred class and no `REGIST` from another server of the class of the current one. -/
def Undisturbed (s : Chooser) (e : ServerEvent) : Prop :=
  ∀ addr, s.client.currentServer = some addr →
    s.client.svrClass addr ≠ s.client.prefsvrId →
    match e with
    | .findserver source => s.client.svrClass source.ip ≠ s.client.prefsvrId
    | .regist source _ _ =>
      s.client.svrClass source.ip = s.client.svrClass addr → source.ip = addr
    | _ => True

/-! ### Invariant -/

/-- The table of servers has no address twice, and `curr_svr_id` is the class of the current
server. -/
structure ClassKnown (c : ServerChoice) : Prop where
  unique : UniqueSlots c.vodsvr.count (VodsvrEntry.key ∘ c.vodsvr.vodtab)
  current : 0 ≤ c.currentVodServer →
    ∃ addr, c.currentServer = some addr ∧ c.currSvrId = c.svrClass addr

/-- The states of runs that are undisturbed. -/
structure ChoiceInv (s : Chooser) : Prop where
  client : ClassKnown s.client
  asked : s.asked = []

section Lemmas

variable {c : ServerChoice} {addr : ℕ}

theorem currentServer_eq_some :
    c.currentServer = some addr ↔ 0 ≤ c.currentVodServer ∧
      c.currentVodServer < c.vodsvr.count ∧
      (c.vodsvr.vodtab c.currentVodServer.toNat).key = some addr := by
  unfold ServerChoice.currentServer
  split_ifs with h
  · simp [h.1, h.2]
  · simp only [false_iff]
    exact fun hall ↦ h ⟨hall.1, hall.2.1⟩

/-- The class of the current server, while there is one. -/
theorem ClassKnown.currSvrId_eq (hknown : ClassKnown c) (hcurrent : c.currentServer = some addr) :
    c.currSvrId = c.svrClass addr := by
  obtain ⟨other, hother, hclass⟩ := hknown.current (currentServer_eq_some.mp hcurrent).1
  obtain rfl : addr = other := Option.some.inj (hcurrent.symm.trans hother)
  exact hclass

/-- `onFindserver` changes the table of servers only. -/
theorem onFindserver_snd (source : Address) :
    (c.onFindserver source).2 = { c with vodsvr := (c.vodsvr.vodsvrAdd source.ip).2 } := by
  unfold ServerChoice.onFindserver
  dsimp only
  split_ifs <;> rfl

/-- With a current server of another class, `FINDSERVER` of the preferred class sends nothing. -/
theorem onFindserver_fst (hknown : ClassKnown c) (hcurrent : c.currentServer = some addr)
    {source : Address} (haddr : c.svrClass addr ≠ c.prefsvrId)
    (hsource : c.svrClass source.ip = c.prefsvrId) : (c.onFindserver source).1 = false := by
  have hpos := (currentServer_eq_some.mp hcurrent).1
  have hid := hknown.currSvrId_eq hcurrent
  have hne : (c.currSvrId == c.svrClass source.ip) = false := by
    rw [beq_eq_false_iff_ne, hid, hsource]
    exact haddr
  unfold ServerChoice.onFindserver
  dsimp only
  split_ifs with hfull hnone hpref
  · rfl
  · omega
  · exact hne
  · rfl

/-- A registration in the table of servers leaves the current server where it is. -/
theorem currentServer_takes {t : Vodtab} {key : ℕ} {rc : ℤ} (udp : UdpTable)
    (htakes : TakesSlot c.vodsvr.count VodsvrEntry.key key c.vodsvr.vodtab t.vodtab rc)
    (hcount : t.count = c.vodsvr.count) (hcurrent : c.currentServer = some addr) :
    ServerChoice.currentServer { c with udp := udp, vodsvr := t } = some addr := by
  obtain ⟨hpos, hlt, hkey⟩ := currentServer_eq_some.mp hcurrent
  exact currentServer_eq_some.mpr ⟨hpos, hcount.symm ▸ hlt, htakes.keyOf_eq hkey⟩

/-- A registration in the table of servers keeps the invariant. -/
theorem ClassKnown.takes (hknown : ClassKnown c) {t : Vodtab} {key : ℕ} {rc : ℤ} (udp : UdpTable)
    (htakes : TakesSlot c.vodsvr.count VodsvrEntry.key key c.vodsvr.vodtab t.vodtab rc)
    (hcount : t.count = c.vodsvr.count) : ClassKnown { c with udp := udp, vodsvr := t } where
  unique := by
    have hunique := htakes.uniqueSlots hknown.unique
    rwa [← hcount] at hunique
  current hpos := by
    obtain ⟨addr, hcurrent, hclass⟩ := hknown.current hpos
    exact ⟨addr, currentServer_takes udp htakes hcount hcurrent, hclass⟩

/-- Making the entry of a registration the current one keeps the invariant. -/
theorem ClassKnown.setCurrent (hknown : ClassKnown c) {t : Vodtab} {source : Address} {rc : ℤ}
    (udp : UdpTable) (peer threshold : ℤ)
    (htakes : TakesSlot c.vodsvr.count VodsvrEntry.key source.ip c.vodsvr.vodtab t.vodtab rc)
    (hcount : t.count = c.vodsvr.count) :
    ClassKnown (ServerChoice.setCurrent { c with udp := udp, vodsvr := t } rc peer source
      threshold) where
  unique := (hknown.takes udp htakes hcount).unique
  current hpos := by
    have hanswer := htakes.answer
    cases hslot : registSlot c.vodsvr.count (VodsvrEntry.key ∘ c.vodsvr.vodtab) source.ip with
    | none =>
      rw [hslot, Option.elim_none] at hanswer
      subst hanswer
      have hneg : (0 : ℤ) ≤ -1 := hpos
      exact absurd hneg (by decide)
    | some i =>
      rw [hslot, Option.elim_some] at hanswer
      subst hanswer
      refine ⟨source.ip, currentServer_eq_some.mpr ⟨Int.natCast_nonneg i, ?_, ?_⟩, rfl⟩
      · exact hcount.symm ▸ Int.ofNat_lt.mpr (registSlot_eq_some hslot).1
      · exact (htakes.taken i hslot).1

/-- Losing the current server keeps the invariant. -/
theorem ClassKnown.unset (hknown : ClassKnown c) (n : ℤ) (have' : Bool) (id : ℤ) :
    ClassKnown { c with
      vodsvr := (c.vodsvr.vodsvrUnsetRegistcode n).2
      currentVodServer := -1
      haveVodServer := have'
      currSvrId := id } where
  unique := by
    have hunique := hknown.unique.of_freed fun i ↦ .inl (vodsvrUnsetRegistcode_key c.vodsvr n i)
    rwa [← vodsvrUnsetRegistcode_count c.vodsvr n] at hunique
  current hpos := by
    have hneg : (0 : ℤ) ≤ -1 := hpos
    exact absurd hneg (by decide)

/-- Every event keeps the client's knowledge of the class of its server. -/
theorem ClassKnown.choiceStep {s s' : Chooser} (hknown : ClassKnown s.client) {e : ServerEvent}
    (hstep : choiceStep s e = some s') : ClassKnown s'.client := by
  have hadd (ip : ℕ) := hknown.takes s.client.udp (takesSlot_vodsvrAdd s.client.vodsvr ip)
    (vodsvrAdd_count s.client.vodsvr ip)
  cases e with
  | findserver source =>
    cases hstep
    simp only [onFindserver_snd]
    exact hadd source.ip
  | regist source sn threshold =>
    cases hstep
    simp only [ServerChoice.onRegist]
    have htakes := takesSlot_vodsvrSetRegistcode s.client.vodsvr source.ip sn
      (s.client.udp.udplibRegistRmaddr source).1
    have hcount := vodsvrSetRegistcode_count s.client.vodsvr source.ip sn
      (s.client.udp.udplibRegistRmaddr source).1
    split_ifs
    · exact hknown.setCurrent _ _ _ htakes hcount
    · exact hknown.setCurrent _ _ _ htakes hcount
    · exact hknown.takes _ htakes hcount
  | needRegist source =>
    cases hstep
    simp only [ServerChoice.onNeedRegist]
    split_ifs
    · exact (hadd source.ip).unset _ _ _
    · exact hadd source.ip
  | unset =>
    cases hstep
    simp only [ServerChoice.unsetVodServer]
    split_ifs
    · exact hknown.unset _ _ _
    · exact hknown

/-! ### What the replies do -/

/-- `REGIST` from a server of another class than the current one, or to a client whose server is of
the preferred class, leaves the current server. -/
theorem onRegist_stays (hknown : ClassKnown c) (hcurrent : c.currentServer = some addr)
    {source : Address} (hstays : c.svrClass addr = c.prefsvrId ∨
      c.svrClass source.ip ≠ c.svrClass addr) (sn threshold : ℤ) :
    (c.onRegist source sn threshold).currentVodServer = c.currentVodServer := by
  have hpos := (currentServer_eq_some.mp hcurrent).1
  have hid := hknown.currSvrId_eq hcurrent
  unfold ServerChoice.onRegist
  dsimp only
  split_ifs with hnone hbetter
  · omega
  · have heq : c.currSvrId = c.svrClass source.ip := hbetter.2
    rcases hstays with hpref | hother
    · exact absurd (hid.trans hpref) hbetter.1
    · exact absurd (heq.symm.trans hid) hother
  · rfl

/-- `REGIST` from a server of the class of the current one, when that is not the preferred class,
makes its entry current. It is the entry of the current server only if it is from that. -/
theorem onRegist_replaces (hknown : ClassKnown c) (hcurrent : c.currentServer = some addr)
    {source : Address} (haddr : c.svrClass addr ≠ c.prefsvrId)
    (hsame : c.svrClass source.ip = c.svrClass addr) (sn threshold : ℤ) :
    (c.onRegist source sn threshold).currentVodServer = c.currentVodServer ↔ source.ip = addr := by
  obtain ⟨hpos, hlt, hkey⟩ := currentServer_eq_some.mp hcurrent
  have hid := hknown.currSvrId_eq hcurrent
  have hrc : (c.onRegist source sn threshold).currentVodServer = (c.vodsvr.vodsvrSetRegistcode
      source.ip sn (c.udp.udplibRegistRmaddr source).1).1 := by
    unfold ServerChoice.onRegist
    dsimp only
    split_ifs with hnone hbetter
    · rfl
    · rfl
    · exact absurd ⟨hid ▸ haddr, hid.trans hsame.symm⟩ hbetter
  have hanswer := (takesSlot_vodsvrSetRegistcode c.vodsvr source.ip sn
    (c.udp.udplibRegistRmaddr source).1).answer
  rw [hrc, hanswer]
  obtain ⟨k, hk⟩ := Int.eq_ofNat_of_zero_le hpos
  rw [hk, Int.toNat_natCast] at hkey
  constructor
  · intro heq
    cases hslot : registSlot c.vodsvr.count (VodsvrEntry.key ∘ c.vodsvr.vodtab) source.ip with
    | none =>
      rw [hslot, Option.elim_none] at heq
      omega
    | some i =>
      rw [hslot, Option.elim_some, hk] at heq
      obtain rfl : i = k := Int.ofNat_inj.mp heq
      rcases (registSlot_eq_some hslot).2 with hheld | hfree
      · exact Option.some.inj (hheld.symm.trans hkey)
      · exact absurd (hkey.symm.trans hfree) (Option.some_ne_none addr)
  · rintro rfl
    have hkn : k < c.vodsvr.count := by omega
    rw [registSlot_of_present hknown.unique hkn hkey, Option.elim_some, hk]

/-- In the states of undisturbed runs a reply does what it should exactly when it does not disturb.
-/
theorem chooses_iff {s : Chooser} (hinv : ChoiceInv s) (e : ServerEvent) :
    Chooses s e ↔ Undisturbed s e := by
  have hknown := hinv.client
  refine forall₂_congr fun addr hcurrent ↦ ?_
  cases e with
  | findserver source =>
    constructor
    · rintro ⟨-, hsends⟩ haddr hsource
      have hsent := hsends haddr hsource
      rw [onFindserver_fst hknown hcurrent haddr hsource] at hsent
      exact absurd hsent (by decide)
    · intro hclear
      exact ⟨fun _ ↦ by rw [onFindserver_snd], fun haddr hsource ↦ absurd hsource (hclear haddr)⟩
  | regist source sn threshold =>
    have hasked : source.ip ∉ s.asked := by simp [hinv.asked]
    constructor
    · rintro ⟨hkeeps, -⟩ haddr hsame
      exact (onRegist_replaces hknown hcurrent haddr hsame sn threshold).mp
        (hkeeps fun hpref ↦ haddr (hsame.symm.trans hpref))
    · intro hclear
      refine ⟨fun hsource ↦ ?_, fun _ hmem ↦ absurd hmem hasked⟩
      by_cases haddr : s.client.svrClass addr = s.client.prefsvrId
      · exact onRegist_stays hknown hcurrent (.inl haddr) sn threshold
      · by_cases hsame : s.client.svrClass source.ip = s.client.svrClass addr
        · exact (onRegist_replaces hknown hcurrent haddr hsame sn threshold).mpr
            (hclear haddr hsame)
        · exact onRegist_stays hknown hcurrent (.inr hsame) sn threshold
  | needRegist source => exact ⟨fun _ _ ↦ trivial, fun _ ↦ trivial⟩
  | unset => exact ⟨fun _ _ ↦ trivial, fun _ ↦ trivial⟩

/-- An undisturbed event keeps the invariant. -/
theorem ChoiceInv.step {s s' : Chooser} (hinv : ChoiceInv s) {e : ServerEvent}
    (hclear : Undisturbed s e) (hstep : choiceStep s e = some s') : ChoiceInv s' := by
  refine ⟨hinv.client.choiceStep hstep, ?_⟩
  cases e with
  | findserver source =>
    have hworse : s.client.isBetter source = false := by
      unfold ServerChoice.isBetter
      cases hcurrent : s.client.currentServer with
      | none => rfl
      | some addr =>
        have hsource := hclear addr hcurrent
        by_cases haddr : s.client.svrClass addr = s.client.prefsvrId
        · simp [haddr]
        · simp [hsource haddr]
    cases hstep
    simp only [hworse]
    exact hinv.asked
  | regist source sn threshold =>
    cases hstep
    exact hinv.asked
  | needRegist source =>
    cases hstep
    exact hinv.asked
  | unset =>
    cases hstep
    exact hinv.asked

/-- A new client has no server. -/
theorem choiceInv_startChoice (myself : ℕ) (prefer : List (ℤ × ℤ)) :
    ChoiceInv (startChoice myself prefer) := by
  have hset (c : ServerChoice) (id divider : ℤ) :
      (c.stiov3SetPreferServer myself id divider).vodsvr = c.vodsvr ∧
        (c.stiov3SetPreferServer myself id divider).currentVodServer = c.currentVodServer := by
    unfold ServerChoice.stiov3SetPreferServer
    split_ifs <;> exact ⟨rfl, rfl⟩
  have hfold (c : ServerChoice) :
      (prefer.foldl (fun c call ↦ c.stiov3SetPreferServer myself call.1 call.2) c).vodsvr =
          c.vodsvr ∧
        (prefer.foldl (fun c call ↦ c.stiov3SetPreferServer myself call.1 call.2)
          c).currentVodServer = c.currentVodServer := by
    induction prefer generalizing c with
    | nil => exact ⟨rfl, rfl⟩
    | cons call rest ih =>
      obtain ⟨htable, hcurrent⟩ := ih (c.stiov3SetPreferServer myself call.1 call.2)
      exact ⟨htable.trans (hset c _ _).1, hcurrent.trans (hset c _ _).2⟩
  obtain ⟨htable, hcurrent⟩ := hfold (ServerChoice.newClient myself)
  have hvodsvr : (ServerChoice.newClient myself).vodsvr = newVodsvr 16 :=
    (hset _ _ _).1.trans (hset _ _ _).1
  have hnone : (ServerChoice.newClient myself).currentVodServer = -1 :=
    (hset _ _ _).2.trans (hset _ _ _).2
  refine ⟨⟨?_, fun hpos ↦ ?_⟩, rfl⟩
  · intro i j key _ _ hkey _
    simp only [startChoice, htable, hvodsvr] at hkey
    exact absurd hkey.symm (Option.some_ne_none key)
  · simp only [startChoice, hcurrent, hnone] at hpos
    exact absurd hpos (by decide)

/-- In every run, the client chooses its server as it should exactly when the run is undisturbed. -/
theorem meets_chooses_iff (myself : ℕ) (prefer : List (ℤ × ℤ)) (events : List ServerEvent) :
    Meets choiceStep Chooses (startChoice myself prefer) events ↔
      Meets choiceStep Undisturbed (startChoice myself prefer) events :=
  meets_iff_of_invariant (fun _ e hinv ↦ chooses_iff hinv e)
    (fun _ _ _ hinv hclear hstep ↦ hinv.step hclear hstep) (choiceInv_startChoice myself prefer)
    events

end Lemmas

/-- Servers with the addresses 0.0.0.2 and 0.0.0.4, both of class 0, answer a client that prefers
class 1. The second `REGIST` replaces the first server. -/
theorem regist_replaces_server :
    ¬ Meets choiceStep Chooses (startChoice 0 [(1, 2)])
      [.regist ⟨2 * 2 ^ 24, 0⟩ 0 0, .regist ⟨4 * 2 ^ 24, 0⟩ 0 0] := by
  intro hmeets
  have hstay := (hmeets.2.1 (2 * 2 ^ 24) rfl).1 (by decide)
  exact absurd hstay (by decide)

end Katmai.StreamioV3
