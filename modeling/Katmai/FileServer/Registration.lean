import Katmai.FileServer.MainLoop
import Katmai.Udplib.UdpTable

/-!
# Registration of clients at the `streamio_v3` server

A `REGIST` goes through two tables of the same size: `udplib_regist_rmaddr` finds or makes a slot
for the address and port of the sender, and `stbtbl_regist` finds or makes an entry for its address
and notes the slot. The answer carries the session number `(my_id << 8) + i` of entry `i`, which
later requests send back and `check_regist` takes apart again with `sn >> 8` and `sn & 0xff`.

`Registrar` is the server with both tables and all answers it has given; the answers hold the number
that the client finds in the datagram. `session_numbers_identify_iff` says that session numbers
identify clients in all histories exactly for servers of at most 256 clients: the number of entry
256 is taken for one of another server. `answersReach_iff` says when every answer leaves the client
reachable: a client that comes back with another port keeps its entry but needs a second slot, and
when the slots have run out it gets a session number all the same.
-/

set_option autoImplicit false
set_option relaxedAutoImplicit false

namespace Katmai.FileServer

open Foundation StreamioV3 Udplib

/-! ### `stbtbl_regist` as a registration -/

/-- The addresses of the entries in use. -/
def entrySlots (t : StbTable) (i : ℕ) : Option ℕ :=
  if (t.stbent i).inuse then some (t.stbent i).addr else none

section StbtblRegist

variable (t : StbTable) (addr : ℕ) (u : ℤ)

theorem entrySlots_eq_some_iff (i a : ℕ) :
    entrySlots t i = some a ↔ (t.stbent i).inuse = true ∧ (t.stbent i).addr = a := by
  unfold entrySlots
  split_ifs with huse
  · rw [Option.some.injEq, and_iff_right huse]
  · simp [huse]

theorem entrySlots_eq_none_iff (i : ℕ) : entrySlots t i = none ↔ (t.stbent i).inuse = false := by
  unfold entrySlots
  split_ifs with huse
  · simp [huse]
  · simpa using huse

theorem find?_same_eq_slotOf :
    ((List.range t.count).find? fun i ↦ (t.stbent i).inuse && (t.stbent i).addr == addr) =
      slotOf t.count (entrySlots t) addr := by
  unfold slotOf
  congr 1
  funext i
  rw [Bool.eq_iff_iff, decide_eq_true_iff, entrySlots_eq_some_iff, Bool.and_eq_true, beq_iff_eq]

theorem find?_free_eq_freeSlot :
    ((List.range t.count).find? fun i ↦ !(t.stbent i).inuse) =
      freeSlot t.count (entrySlots t) := by
  unfold freeSlot
  congr 1
  funext i
  rw [Bool.eq_iff_iff, decide_eq_true_iff, entrySlots_eq_none_iff, Bool.not_eq_true']

/-- A free entry after it was taken. -/
def takenEntry (entry : StbEntry) : StbEntry :=
  { entry with
    inuse := true
    addr := addr
    udp := u
    channel := fun j ↦ { entry.channel j with fd := none, filesize := 0, filecount := 0 } }

/-- What `stbtbl_regist` does: it finds the entry of the address, takes a free one, or fails. -/
theorem stbtblRegist_cases :
    (∃ i, registSlot t.count (entrySlots t) addr = some i ∧ entrySlots t i = some addr ∧
      t.stbtblRegist addr u =
        ((i : ℤ), { t with stbent := Function.update t.stbent i { t.stbent i with udp := u } })) ∨
    (∃ i, registSlot t.count (entrySlots t) addr = some i ∧ entrySlots t i = none ∧
      t.stbtblRegist addr u =
        ((i : ℤ), { t with
          stbent := Function.update t.stbent i (takenEntry addr u (t.stbent i)) })) ∨
    (registSlot t.count (entrySlots t) addr = none ∧ t.stbtblRegist addr u = (-1, t)) := by
  unfold StbTable.stbtblRegist registSlot
  rw [find?_same_eq_slotOf, find?_free_eq_freeSlot]
  cases hsame : slotOf t.count (entrySlots t) addr with
  | some i => exact .inl ⟨i, Option.some_or, (slotOf_eq_some hsame).2, rfl⟩
  | none =>
    cases hfree : freeSlot t.count (entrySlots t) with
    | some i => exact .inr (.inl ⟨i, Option.none_or, (freeSlot_eq_some hfree).2, rfl⟩)
    | none => exact .inr (.inr ⟨Option.none_or, rfl⟩)

/-- The entry that `stbtbl_regist` returns. -/
theorem stbtblRegist_fst :
    (t.stbtblRegist addr u).1 =
      (registSlot t.count (entrySlots t) addr).elim (-1) fun i ↦ (i : ℤ) := by
  rcases stbtblRegist_cases t addr u with ⟨i, hslot, -, heq⟩ | ⟨i, hslot, -, heq⟩ | ⟨hslot, heq⟩ <;>
    rw [hslot, heq] <;> rfl

theorem stbtblRegist_fst_of_eq_some {i : ℕ}
    (hslot : registSlot t.count (entrySlots t) addr = some i) : (t.stbtblRegist addr u).1 = i := by
  rw [stbtblRegist_fst, hslot, Option.elim_some]

/-- What the entries hold after `stbtbl_regist`. -/
theorem entrySlots_stbtblRegist :
    entrySlots (t.stbtblRegist addr u).2 = regist t.count (entrySlots t) addr := by
  rcases stbtblRegist_cases t addr u with ⟨i, hslot, hsame, heq⟩ | ⟨i, hslot, -, heq⟩ |
    ⟨hslot, heq⟩
  · rw [heq, regist, hslot]
    dsimp only
    rw [← hsame, Function.update_eq_self]
    funext j
    by_cases hji : j = i
    · subst hji
      simp [entrySlots]
    · simp [entrySlots, Function.update_of_ne hji]
  · rw [heq, regist, hslot]
    funext j
    by_cases hji : j = i
    · subst hji
      simp [entrySlots, takenEntry]
    · simp [entrySlots, Function.update_of_ne hji]
  · rw [heq, regist, hslot]

theorem stbtblRegist_count : (t.stbtblRegist addr u).2.count = t.count := by
  rcases stbtblRegist_cases t addr u with ⟨i, -, -, heq⟩ | ⟨i, -, -, heq⟩ | ⟨-, heq⟩ <;> rw [heq]

/-- The entry notes the slot of the client. -/
theorem stbtblRegist_udp {i : ℕ} (hentry : (t.stbtblRegist addr u).1 = i) :
    ((t.stbtblRegist addr u).2.stbent i).udp = u := by
  rcases stbtblRegist_cases t addr u with ⟨j, -, -, heq⟩ | ⟨j, -, -, heq⟩ | ⟨-, heq⟩
  · rw [heq] at hentry ⊢
    obtain rfl : j = i := Int.ofNat_inj.mp hentry
    simp
  · rw [heq] at hentry ⊢
    obtain rfl : j = i := Int.ofNat_inj.mp hentry
    simp [takenEntry]
  · rw [heq] at hentry
    exact absurd hentry (by omega)

end StbtblRegist

/-! ### The server and its answers -/

/-- An answer to a `REGIST`: to whom, for which entry, and the session number in the datagram. -/
structure Answer where
  source : Address
  entry : ℤ
  sn : ℤ
  deriving DecidableEq, Repr

/-- The server, the table of its UDP socket and the answers given so far. -/
structure Registrar where
  server : V3Server
  udp : UdpTable
  answers : List Answer

/-- A `REGIST` that arrives intact, and what the rest of the system contributes. -/
structure RegistEvent where
  m : Received
  env : V3Env
  cksumOk : m.cksumOk = true
  cmd_eq : getInt m.buffer 4 = 1

/-- `new_streamming_io_v3_server` for `maxclient` clients. -/
def newRegistrar (maxclient : ℕ) (server : V3Server) : Registrar where
  server := { server with stbQosThreshold := 60, table := newStbtable maxclient }
  udp := newUdplib maxclient
  answers := []

/-- What a handled `REGIST` leaves. -/
def afterRegist (s : Registrar) (event : RegistEvent) (handled : Handled V3Server) : Registrar :=
  let peer := s.udp.udplibRegistRmaddr event.m.source
  { server := handled.state
    udp := peer.2
    answers := s.answers ++ (handled.sent.map fun reply ↦ getInt reply.buffer 8).map fun sn ↦
      ⟨event.m.source, (s.server.table.stbtblRegist event.m.source.ip peer.1).1, sn⟩ }

/-- A pass of the loop of `streamio_v3_main` over a `REGIST`: the sender gets a slot, and the
datagram is dispatched with it. -/
def registStep (s : Registrar) (event : RegistEvent) : Option Registrar :=
  let slot := (s.udp.udplibRegistRmaddr event.m.source).1
  (streamioV3Dispatch false s.server { event.env with slot := slot } event.m).map
    (afterRegist s event)

/-- The answer to a `REGIST`. -/
def registAnswer (s : Registrar) (event : RegistEvent) : Answer :=
  let i := (s.server.table.stbtblRegist event.m.source.ip
    (s.udp.udplibRegistRmaddr event.m.source).1).1
  ⟨event.m.source, i, Int.bmod (if i ≥ 0 then s.server.myId * 2 ^ 8 + i else -1) (2 ^ 32)⟩

/-- The session number in the reply to a `REGIST`. -/
theorem getInt_handleRegist_sent (s : V3Server) (env : V3Env) (m : Received) :
    (handleRegist s env m).sent.map (fun reply ↦ getInt reply.buffer 8) =
      [Int.bmod (if (s.table.stbtblRegist m.source.ip env.slot).1 ≥ 0 then
        s.myId * 2 ^ 8 + (s.table.stbtblRegist m.source.ip env.slot).1 else -1) (2 ^ 32)] := by
  unfold handleRegist
  dsimp only [List.map]
  rw [getInt_buffer_sealBytes _ _ (by decide) (by decide), getInt_putInt_of_le (by decide),
    getInt_putInt_of_le (by decide), getInt_putInt_of_le (by decide), getInt_putInt]

/-- The server after a `REGIST`. -/
def registered (s : Registrar) (event : RegistEvent) : Registrar where
  server := { s.server with
    table := (s.server.table.stbtblRegist event.m.source.ip
      (s.udp.udplibRegistRmaddr event.m.source).1).2 }
  udp := (s.udp.udplibRegistRmaddr event.m.source).2
  answers := s.answers ++ [registAnswer s event]

/-- What a `REGIST` does. -/
theorem registStep_eq (s : Registrar) (event : RegistEvent) :
    registStep s event = some (registered s event) := by
  have hdispatch (env : V3Env) : streamioV3Dispatch false s.server env event.m =
      some (handleRegist s.server env event.m) := by
    simp [streamioV3Dispatch, event.cksumOk, event.cmd_eq]
  unfold registStep
  dsimp only
  rw [hdispatch, Option.map_some, afterRegist, getInt_handleRegist_sent]
  rfl

/-! ### Session numbers -/

/-- Clients with different addresses have different session numbers, and `check_regist` takes every
session number back to its entry. -/
def SessionNumbersIdentify (s : Registrar) : Prop :=
  (∀ a ∈ s.answers, ∀ b ∈ s.answers, 0 ≤ a.entry → 0 ≤ b.entry → a.source.ip ≠ b.source.ip →
    a.sn ≠ b.sn) ∧
  ∀ a ∈ s.answers, 0 ≤ a.entry → ∀ (env : V3Env) (m : Received), getInt m.buffer 8 = a.sn →
    checkRegist s.server env m = .inl a.entry.toNat

/-- What registrations keep: an entry that was given to a client is in the table, stays with the
address of the client, and the client was told its number. -/
structure AnswersRecorded (maxclient : ℕ) (myId : ℤ) (s : Registrar) : Prop where
  count_eq : s.server.table.count = maxclient
  myId_eq : s.server.myId = myId
  answered : ∀ a ∈ s.answers, 0 ≤ a.entry →
    a.entry < maxclient ∧ entrySlots s.server.table a.entry.toNat = some a.source.ip ∧
      a.sn = Int.bmod (myId * 2 ^ 8 + a.entry) (2 ^ 32)

theorem answersRecorded_new (maxclient : ℕ) (server : V3Server) :
    AnswersRecorded maxclient server.myId (newRegistrar maxclient server) where
  count_eq := rfl
  myId_eq := rfl
  answered := fun _ ha ↦ absurd ha List.not_mem_nil

/-- A registration keeps the record. -/
theorem AnswersRecorded.registStep {maxclient : ℕ} {myId : ℤ} {s s' : Registrar}
    {event : RegistEvent} (hrec : AnswersRecorded maxclient myId s)
    (hstep : registStep s event = some s') : AnswersRecorded maxclient myId s' := by
  rw [registStep_eq, Option.some.injEq] at hstep
  subst hstep
  refine ⟨(stbtblRegist_count _ _ _).trans hrec.count_eq, hrec.myId_eq, fun a ha hentry ↦ ?_⟩
  dsimp only [registered] at ha ⊢
  rw [entrySlots_stbtblRegist]
  rcases List.mem_append.mp ha with hold | hnew
  · obtain ⟨hlt, hslot, hsn⟩ := hrec.answered a hold hentry
    exact ⟨hlt, regist_of_eq_some hslot, hsn⟩
  · obtain rfl := List.mem_singleton.mp hnew
    unfold registAnswer at hentry ⊢
    dsimp only at hentry ⊢
    rw [if_pos hentry]
    rw [stbtblRegist_fst] at hentry ⊢
    cases hslot : registSlot s.server.table.count (entrySlots s.server.table)
        event.m.source.ip with
    | none =>
      rw [hslot] at hentry
      exact absurd hentry (by decide)
    | some i =>
      have hlt := (registSlot_eq_some hslot).1
      rw [hrec.count_eq] at hlt
      rw [Option.elim_some, Int.toNat_natCast]
      exact ⟨Int.ofNat_lt.mpr hlt, regist_of_registSlot hslot, by rw [hrec.myId_eq]⟩

/-- Every history of registrations keeps the record. -/
theorem answersRecorded_of_run {maxclient : ℕ} {server : V3Server} {events : List RegistEvent}
    {s : Registrar} (hrun : run registStep (newRegistrar maxclient server) events = some s) :
    AnswersRecorded maxclient server.myId s :=
  run_invariant (fun _ _ _ hrec hstep ↦ hrec.registStep hstep)
    (answersRecorded_new maxclient server) hrun

/-- Up to 256 clients can be told apart. -/
theorem AnswersRecorded.identify {maxclient : ℕ} {myId : ℤ} {s : Registrar}
    (hrec : AnswersRecorded maxclient myId s) (hlo : 0 ≤ myId) (hhi : myId < 2 ^ 23)
    (hmax : maxclient ≤ 256) : SessionNumbersIdentify s := by
  have hsn {a : Answer} (ha : a ∈ s.answers) (hentry : 0 ≤ a.entry) :
      a.entry < 256 ∧ a.sn = myId * 2 ^ 8 + a.entry := by
    obtain ⟨hlt, -, hsn⟩ := hrec.answered a ha hentry
    refine ⟨by omega, hsn.trans (bmod_eq_self (by omega) (by omega))⟩
  refine ⟨fun a ha b hb hea heb hne heq ↦ ?_, fun a ha hea env m hm ↦ ?_⟩
  · have hsa := (hsn ha hea).2
    have hsb := (hsn hb heb).2
    have hentry : a.entry = b.entry := by omega
    have hslot := (hrec.answered a ha hea).2.1
    rw [hentry, (hrec.answered b hb heb).2.1, Option.some.injEq] at hslot
    exact hne hslot.symm
  · obtain ⟨hlt, hsn⟩ := hsn ha hea
    unfold checkRegist
    dsimp only
    have hhigh : myId = (myId * 2 ^ 8 + a.entry) / 2 ^ 8 := by omega
    have hlow : (myId * 2 ^ 8 + a.entry) % 2 ^ 8 = a.entry := by omega
    rw [hm, hsn, hrec.myId_eq, if_pos hhigh, hlow]

/-- `check_regist` returns no entry from 256 on. -/
theorem checkRegist_lt {s : V3Server} {env : V3Env} {m : Received} {i : ℕ}
    (hentry : checkRegist s env m = .inl i) : i < 256 := by
  unfold checkRegist at hentry
  dsimp only at hentry
  split_ifs at hentry
  obtain rfl := Sum.inl.inj hentry
  omega

/-- A sealed `REGIST`. -/
def registBuffer : ℕ → UInt8 :=
  putInt (putInt (fun _ ↦ 0) 4 1) 0 1

/-- A `REGIST` of the client with an address and a port. -/
def registDatagram (source : Address) : Received where
  source := source
  len := 24
  len_pos := Nat.succ_pos 23
  len_le := by decide
  buffer := registBuffer

theorem cksumOk_registDatagram (source : Address) : (registDatagram source).cksumOk = true :=
  (by decide : decide ((csCksum registBuffer 24 : ℤ) = getInt registBuffer 0) = true)

/-- What the rest of the system contributes does not matter for a `REGIST`, the slot apart. -/
def quietEnv : V3Env where
  slot := 0
  pathnameLen := 0
  lookup := .noStat 0
  realFilename := none
  err := 0
  pdu := fun _ ↦ 0

/-- A `REGIST` of a client. -/
def registOf (source : Address) : RegistEvent where
  m := registDatagram source
  env := quietEnv
  cksumOk := cksumOk_registDatagram source
  cmd_eq := (by decide : getInt registBuffer 4 = 1)

/-- The first `k` addresses, each of which registers once. -/
def firstClients (k : ℕ) : List RegistEvent :=
  (List.range k).map fun ip ↦ registOf ⟨ip, 1⟩

/-- As long as there is room, address `j` gets entry `j`. -/
theorem run_firstClients (maxclient : ℕ) (server : V3Server) (k : ℕ) (hk : k ≤ maxclient) :
    ∃ s, run registStep (newRegistrar maxclient server) (firstClients k) = some s ∧
      s.server.table.count = maxclient ∧
      (∀ j, entrySlots s.server.table j = if j < k then some j else none) ∧
      ∀ j < k, ∃ a ∈ s.answers, a.entry = j := by
  induction k with
  | zero =>
    exact ⟨newRegistrar maxclient server, rfl, rfl, fun j ↦ rfl, fun j hj ↦ absurd hj (by omega)⟩
  | succ k ih =>
    obtain ⟨s, hrun, hcount, hslots, hanswers⟩ := ih (by omega)
    have hslot : registSlot s.server.table.count (entrySlots s.server.table) k = some k := by
      refine registSlot_eq_next (by omega) (fun j hj ↦ ?_) (fun j _ ↦ ?_) ?_
      · rw [hslots, if_pos hj]
        exact Option.some_ne_none j
      · rw [hslots]
        split_ifs with hjk
        · exact fun heq ↦ hjk.ne (Option.some.inj heq)
        · exact (Option.some_ne_none k).symm
      · rw [hslots, if_neg (Nat.lt_irrefl k)]
    have hentry : (registAnswer s (registOf ⟨k, 1⟩)).entry = k :=
      stbtblRegist_fst_of_eq_some _ _ _ hslot
    refine ⟨registered s (registOf ⟨k, 1⟩), ?_, (stbtblRegist_count _ _ _).trans hcount,
      fun j ↦ ?_, fun j hj ↦ ?_⟩
    · rw [firstClients, List.range_succ, List.map_append, run_append_eq_some]
      exact ⟨s, hrun, run_cons_eq_some.mpr ⟨_, registStep_eq _ _, rfl⟩⟩
    · dsimp only [registered]
      rw [entrySlots_stbtblRegist]
      change regist s.server.table.count (entrySlots s.server.table) k j = _
      rw [regist_eq_update hslot]
      rcases Nat.lt_trichotomy j k with hlt | rfl | hgt
      · rw [Function.update_of_ne hlt.ne, hslots, if_pos hlt,
          if_pos (hlt.trans (Nat.lt_succ_self k))]
      · rw [Function.update_self, if_pos (Nat.lt_succ_self j)]
      · rw [Function.update_of_ne hgt.ne', hslots, if_neg (by omega), if_neg (by omega)]
    · rcases Nat.lt_succ_iff_lt_or_eq.mp hj with hlt | rfl
      · obtain ⟨a, ha, haj⟩ := hanswers j hlt
        exact ⟨a, List.mem_append_left _ ha, haj⟩
      · exact ⟨_, List.mem_append_right _ (List.mem_singleton.mpr rfl), hentry⟩

/-- The client of entry 256 cannot be told by its number. -/
theorem not_identify_of_lt {maxclient : ℕ} (server : V3Server) (hmax : 256 < maxclient) :
    ∃ s, run registStep (newRegistrar maxclient server) (firstClients 257) = some s ∧
      ¬SessionNumbersIdentify s := by
  obtain ⟨s, hrun, -, -, hanswers⟩ := run_firstClients maxclient server 257 hmax
  obtain ⟨a, ha, hentry⟩ := hanswers 256 (by decide)
  refine ⟨s, hrun, fun hidentify ↦ ?_⟩
  have hsn : getInt (putInt (fun _ ↦ 0) 8 a.sn) 8 = a.sn := by
    have hword := ((answersRecorded_of_run hrun).answered a ha (by omega)).2.2
    rw [getInt_putInt, hword, Int.bmod_bmod]
  have hcheck := hidentify.2 a ha (by omega) quietEnv
    ⟨⟨0, 0⟩, 24, by decide, by decide, putInt (fun _ ↦ 0) 8 a.sn⟩ hsn
  have hlt := checkRegist_lt hcheck
  omega

/-- Session numbers identify clients in every history of registrations exactly if the server has
room for at most 256 clients. -/
theorem session_numbers_identify_iff (maxclient : ℕ) (server : V3Server) (hlo : 0 ≤ server.myId)
    (hhi : server.myId < 2 ^ 23) :
    (∀ events s, run registStep (newRegistrar maxclient server) events = some s →
      SessionNumbersIdentify s) ↔ maxclient ≤ 256 := by
  constructor
  · intro hall
    by_contra hmax
    obtain ⟨s, hrun, hnot⟩ := not_identify_of_lt server (Nat.not_le.mp hmax)
    exact hnot (hall _ s hrun)
  · intro hmax events s hrun
    exact (answersRecorded_of_run hrun).identify hlo hhi hmax

/-- A server with the identity 5. -/
def exampleServer : V3Server where
  myId := 5
  stbQosThreshold := 60
  versionMajor := 0
  versionMinor := 0
  table := newStbtable 0
  netq := fun _ ↦ (Mqueue.newMultipleQueue 20 2 256).get rfl

theorem session_numbers_identify_iff_exampleServer :
    (∀ events s, run registStep (newRegistrar 20 exampleServer) events = some s →
      SessionNumbersIdentify s) ↔ 20 ≤ 256 :=
  session_numbers_identify_iff 20 exampleServer (by decide) (by decide)

/-- With room for 257 clients, the last one cannot use its session number. -/
theorem not_session_numbers_identify :
    ¬∀ events s, run registStep (newRegistrar 257 exampleServer) events = some s →
      SessionNumbersIdentify s := by
  intro hall
  obtain ⟨s, hrun, hnot⟩ := not_identify_of_lt exampleServer (by decide : 256 < 257)
  exact hnot (hall _ s hrun)

/-! ### Reachability of the clients -/

/-- If a `REGIST` is answered with a session number (which a number that is not negative is), the
entry of the client notes a slot of the UDP table that is in use for the client. -/
def AnswerReaches (s : Registrar) (event : RegistEvent) : Prop :=
  ∀ s' a, registStep s event = some s' → s'.answers = s.answers ++ [a] →
    (0 ≤ a.sn → 0 ≤ a.entry) ∧
    (0 ≤ a.entry → ∃ k < s'.udp.listcnt, (s'.server.table.stbent a.entry.toNat).udp = k ∧
      s'.udp.addruse k = true ∧ s'.udp.addrlist k = a.source)

/-- If the table has an entry for the sender of a `REGIST`, or a free one, the UDP table has a slot
for it, or a free one. -/
def SlotForEntry (s : Registrar) (event : RegistEvent) : Prop :=
  (∃ i < s.server.table.count,
    entrySlots s.server.table i = some event.m.source.ip ∨ entrySlots s.server.table i = none) →
  ∃ k < s.udp.listcnt, s.udp.slots k = some event.m.source ∨ s.udp.slots k = none

/-- Whether there is a slot can be computed. -/
instance decidableSlotForEntry (s : Registrar) (event : RegistEvent) :
    Decidable (SlotForEntry s event) :=
  inferInstanceAs (Decidable (_ → _))

/-- The entry of an answer notes the slot that the sender got. -/
theorem registered_udp {s : Registrar} {event : RegistEvent}
    (hnonneg : 0 ≤ (registAnswer s event).entry) :
    ((registered s event).server.table.stbent (registAnswer s event).entry.toNat).udp =
      (s.udp.udplibRegistRmaddr event.m.source).1 :=
  stbtblRegist_udp _ _ _ (Int.toNat_of_nonneg hnonneg).symm

/-- One answer leaves its client reachable exactly when there is a slot for it. -/
theorem answerReaches_iff (s : Registrar) (event : RegistEvent) :
    AnswerReaches s event ↔ SlotForEntry s event := by
  have hslot := s.udp.udplibRegistRmaddr_fst event.m.source
  constructor
  · rintro hreaches hentry
    obtain ⟨i, hi⟩ := exists_registSlot_iff.mpr hentry
    have hfst := stbtblRegist_fst_of_eq_some s.server.table event.m.source.ip
      (s.udp.udplibRegistRmaddr event.m.source).1 hi
    have hnonneg : 0 ≤ (registAnswer s event).entry := (Int.natCast_nonneg i).trans_eq hfst.symm
    obtain ⟨k, -, hudp, -⟩ := (hreaches _ _ (registStep_eq s event) rfl).2 hnonneg
    refine exists_registSlot_iff.mp ?_
    cases hk : registSlot s.udp.listcnt s.udp.slots event.m.source with
    | some j => exact ⟨j, rfl⟩
    | none =>
      rw [registered_udp hnonneg, hslot, hk, Option.elim_none] at hudp
      omega
  · rintro havailable s' a hstep hanswers
    rw [registStep_eq, Option.some.injEq] at hstep
    subst hstep
    obtain rfl : registAnswer s event = a := by simpa [registered] using hanswers
    refine ⟨fun hsn ↦ ?_, fun hnonneg ↦ ?_⟩
    · by_contra hneg
      have hsn' : (registAnswer s event).sn = -1 := by
        unfold registAnswer at hneg ⊢
        dsimp only at hneg ⊢
        rw [if_neg hneg]
        rfl
      omega
    · have hentry : ∃ i, registSlot s.server.table.count (entrySlots s.server.table)
          event.m.source.ip = some i := by
        cases hi : registSlot s.server.table.count (entrySlots s.server.table)
            event.m.source.ip with
        | some i => exact ⟨i, rfl⟩
        | none =>
          have hfst : (registAnswer s event).entry = -1 := by
            refine (stbtblRegist_fst _ _ _).trans ?_
            rw [hi, Option.elim_none]
          omega
      obtain ⟨k, hk⟩ := exists_registSlot_iff.mpr (havailable (exists_registSlot_iff.mp hentry))
      have hheld : (registered s event).udp.slots k = some event.m.source := by
        refine (congrFun (s.udp.udplibRegistRmaddr_slots event.m.source) k).trans ?_
        exact regist_of_registSlot hk
      refine ⟨k, ?_, ?_, (UdpTable.slots_eq_some_iff _ k _).mp hheld⟩
      · exact (registSlot_eq_some hk).1.trans_eq (s.udp.udplibRegistRmaddr_listcnt _).symm
      · rw [registered_udp hnonneg, hslot, hk, Option.elim_some]

/-- All answers of a history leave their clients reachable exactly when at every `REGIST` that gets
an entry there is a slot for its sender. -/
theorem answersReach_iff (maxclient : ℕ) (server : V3Server) (events : List RegistEvent) :
    Meets registStep AnswerReaches (newRegistrar maxclient server) events ↔
      Meets registStep SlotForEntry (newRegistrar maxclient server) events :=
  meets_congr answerReaches_iff (newRegistrar maxclient server) events

/-- With one slot, a client that comes back with another port is answered but not reachable. -/
theorem not_answersReach_second_port :
    ¬Meets registStep AnswerReaches (newRegistrar 1 exampleServer)
      [registOf ⟨10, 1⟩, registOf ⟨10, 2⟩] := by
  rw [meets_congr answerReaches_iff]
  decide +kernel

end Katmai.FileServer
