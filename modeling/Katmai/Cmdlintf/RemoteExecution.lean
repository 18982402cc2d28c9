import Katmai.Cmdlintf.CommandTree
import Katmai.FileServer.Datagram
import Katmai.Foundation.Inevitable
import Mathlib.Data.List.GetD
import Mathlib.Data.List.TakeWhile

/-!
# Remote execution

A client with a connection to a server does not run a remote command itself. `execute_line` sends
the line; `accept_client` in the server runs it with `execute_line`, where what is printed is
collected in `bp_buffer`, and answers with the value, the number of bytes and the bytes; the client
prints these and returns the value. Nothing says where a line ends: the server takes what one
`read` of up to 4095 bytes returns.

`Link` is a client and a server with the bytes under way, and `linkStep` one step of either.
`remote_execution` says that along every run a line of at most 4095 bytes whose command prints at
most 10239 bytes has the effect that it has without a server, and that afterwards nothing is under
way; the server waits for the next line, unless the value is 0 or the command has ended the server.
The two bounds are those of the buffers, and no line beyond them has that effect
(`inevitable_executed_iff`).
-/

set_option autoImplicit false
set_option relaxedAutoImplicit false

namespace Katmai.Cmdlintf

open Katmai.FileServer Foundation

/-! ### Execution in one process -/

/-- What a function does: the value that it returns, what it prints, call by call, the state of the
program, and whether it has set `terminate`. -/
structure Ran (σ : Type) where
  retval : Int32
  prints : List (List UInt8)
  state : σ
  terminates : Bool

/-- A function of a command: it gets the state of the program and the text behind the command. -/
abbrev Handler (σ : Type) : Type :=
  σ → Option (List UInt8) → Ran σ

variable {σ : Type}

/-- `execute_line` in a program without a server. -/
def executeLine (t : CommandTree (Handler σ)) (state : σ) (cmd : List UInt8) : Ran σ :=
  match findMatchAsPossible t cmd with
  | none => ⟨1, [noSuchCommand cmd], state, false⟩
  | some (i, command) =>
    match command.value.func with
    | none => ⟨1, [incompleteCommand cmd], state, false⟩
    | some func => func state (nthwordptr cmd (i + 1))

/-- The line is for a command that has a function and is remote. -/
def IsRemote (t : CommandTree (Handler σ)) (cmd : List UInt8) : Prop :=
  ∃ command ∈ findMatchAsPossible t cmd,
    command.2.value.func ≠ none ∧ command.2.value.isRmt ≠ 0

/-- `bprint`, with the bytes in `bp_buffer` up to `bp_index`: what is printed has to fit with the
zero byte behind it. -/
def bprint (bpBuffer bytes : List UInt8) : Option (List UInt8) :=
  if bpBuffer.length + bytes.length < 10240 then some (bpBuffer ++ bytes) else none

/-! ### Client and server -/

/-- Where the client is: in no call, or in `execute_line` before a `read`. -/
inductive ClientPhase
  | ready
  | readsRetval
  | readsLen (retval : ℤ)
  | readsData (retval left : ℤ)
  deriving DecidableEq, Repr

/-- Where `accept_client` is: before a `read`, before one of its writes, or past its loop. -/
inductive ServerPhase
  | waits
  | writesRetval (retval : Int32)
  | writesLen (retval : Int32)
  | writesData (retval : Int32)
  | closed
  deriving DecidableEq, Repr

/-- A client and a server. `todo` are the lines that the client is still to execute, and `len` is
what is in its variable; `executed` are the lines that the server has run. -/
structure Link (σ : Type) where
  client : ClientPhase
  todo : List (List UInt8)
  len : ℤ
  clientState : σ
  printed : List UInt8
  returned : List ℤ
  server : ServerPhase
  serverState : σ
  terminate : Bool
  bpBuffer : List UInt8
  executed : List (List UInt8)
  toServer : List UInt8
  toClient : List UInt8

/-- The bytes of an `int`. -/
def intBytes (value : ℤ) : List UInt8 :=
  firstBytes (putInt (fun _ ↦ 0) 0 value) 4

/-- An `int` after a `read` into it has returned `bytes`. -/
def loadInt (old : ℤ) (bytes : List UInt8) : ℤ :=
  getInt (fun j ↦ bytes.getD j (putInt (fun _ ↦ 0) 0 old j)) 0

namespace Link

/-- `read (pdptr->svc_fd, …, n)`: all bytes that there are, up to `n`, and none at the end of the
stream. -/
def read (s : Link σ) (n : ℕ) : Option (List UInt8 × Link σ) :=
  if s.toClient = [] ∧ s.server ≠ .closed then none
  else some (s.toClient.take n, { s with toClient := s.toClient.drop n })

/-- `execute_line` returns. -/
def finish (s : Link σ) (retval : ℤ) : Link σ :=
  { s with client := .ready, returned := s.returned ++ [retval] }

/-- `while (len > 0)` -/
def dataLoop (s : Link σ) (retval left : ℤ) : Link σ :=
  if left > 0 then { s with client := .readsData retval left } else s.finish retval

/-- `execute_line` in the client, up to its first `read`. -/
def startLine (t : CommandTree (Handler σ)) (s : Link σ) (cmd : List UInt8) : Link σ :=
  match findMatchAsPossible t cmd with
  | none => { s with printed := s.printed ++ noSuchCommand cmd }.finish 1
  | some (i, command) =>
    match command.value.func with
    | none => { s with printed := s.printed ++ incompleteCommand cmd }.finish 1
    | some func =>
      if command.value.isRmt = 0 then
        let ran := func s.clientState (nthwordptr cmd (i + 1))
        { s with
          clientState := ran.state
          printed := s.printed ++ ran.prints.flatten }.finish ran.retval.toInt
      else { s with client := .readsRetval, toServer := s.toServer ++ cmd }

/-- A step of the client. -/
def clientStep (t : CommandTree (Handler σ)) (s : Link σ) : Option (Link σ) :=
  match s.client with
  | .ready =>
    match s.todo with
    | [] => none
    | cmd :: todo => some ({ s with todo := todo }.startLine t cmd)
  | .readsRetval =>
    (s.read 4).map fun r ↦ { r.2 with client := .readsLen (loadInt 1 r.1) }
  | .readsLen retval =>
    (s.read 4).map fun r ↦
      { r.2 with len := loadInt s.len r.1 }.dataLoop retval (loadInt s.len r.1)
  | .readsData retval left =>
    -- `xlen` is at most `sizeof buffer - 1`
    (s.read (if left > 1023 then 1023 else left.toNat)).map fun r ↦
      if r.1 = [] then r.2.finish retval
      else { r.2 with printed := s.printed ++ r.1 }.dataLoop retval (left - r.1.length)

/-- `accept_client` after a reply: the loop is left when the value is 0 or `terminate` is set. -/
def afterReply (retval : Int32) (terminate : Bool) : ServerPhase :=
  if retval = 0 then .closed else if terminate then .closed else .waits

/-- A step of the server. There is none when it waits for bytes, and none is defined when what is
printed runs past `bp_buffer`. -/
def serverStep (t : CommandTree (Handler σ)) (s : Link σ) : Option (Link σ) :=
  match s.server with
  | .waits =>
    if s.toServer = [] then none
    else
      let cmd := (s.toServer.take 4095).takeWhile (· ≠ 0)
      let ran := executeLine t s.serverState cmd
      (ran.prints.foldlM bprint s.bpBuffer).map fun bpBuffer ↦
        { s with
          server := .writesRetval ran.retval
          serverState := ran.state
          terminate := s.terminate || ran.terminates
          bpBuffer := bpBuffer
          executed := s.executed ++ [cmd]
          toServer := s.toServer.drop 4095 }
  | .writesRetval retval =>
    some { s with server := .writesLen retval, toClient := s.toClient ++ intBytes retval.toInt }
  | .writesLen retval =>
    some { s with
      server := .writesData retval
      toClient := s.toClient ++ intBytes s.bpBuffer.length }
  | .writesData retval =>
    some { s with
      server := afterReply retval s.terminate
      bpBuffer := []
      toClient := s.toClient ++ s.bpBuffer }
  | .closed => none

end Link

/-- Either of the two. -/
inductive Party
  | client
  | server
  deriving DecidableEq, Repr

/-- One step of a party. -/
def linkStep (t : CommandTree (Handler σ)) (s : Link σ) : Party → Option (Link σ)
  | .client => s.clientStep t
  | .server => s.serverStep t

/-! ### What a command comes to -/

/-- The server's place when it has done what it has left to do. -/
def Link.serverNext (s : Link σ) : ServerPhase :=
  match s.server with
  | .writesData retval => Link.afterReply retval s.terminate
  | phase => phase

/-- Nothing is under way, and the server waits for a line, or is about to. -/
structure InSync (s : Link σ) : Prop where
  client : s.client = .ready
  toServer : s.toServer = []
  toClient : s.toClient = []
  bpBuffer : s.bpBuffer = []
  server : s.serverNext = .waits

/-- From `s` to `u` the first line to do, `cmd`, has been executed with the effect `ran`. -/
structure Executed (s : Link σ) (cmd : List UInt8) (ran : Ran σ) (u : Link σ) : Prop where
  executed : u.executed = s.executed ++ [cmd]
  printed : u.printed = s.printed ++ ran.prints.flatten
  returned : u.returned = s.returned ++ [ran.retval.toInt]
  serverState : u.serverState = ran.state
  clientState : u.clientState = s.clientState
  terminate : u.terminate = (s.terminate || ran.terminates)
  todo : u.todo = s.todo.tail
  client : u.client = .ready
  toServer : u.toServer = []
  toClient : u.toClient = []
  bpBuffer : u.bpBuffer = []
  server : u.serverNext = Link.afterReply ran.retval u.terminate

/-! ### Integers on the wire -/

theorem length_intBytes (value : ℤ) : (intBytes value).length = 4 := by
  simp [intBytes, firstBytes]

theorem intBytes_ne_nil (value : ℤ) : intBytes value ≠ [] := by
  rw [← List.length_pos_iff, length_intBytes]
  decide

/-- An integer that has come in whole is loaded back. -/
theorem loadInt_intBytes (old : ℤ) {value : ℤ} (hlo : -2 ^ 31 ≤ value) (hhi : value < 2 ^ 31) :
    loadInt old (intBytes value) = value := by
  have hsame : loadInt old (intBytes value) = getInt (putInt (fun _ ↦ 0) 0 value) 0 := by
    refine getInt_congr fun k hk ↦ ?_
    have hlt : 0 + k < (intBytes value).length := by
      rw [length_intBytes]
      omega
    rw [List.getD_eq_getElem _ _ hlt]
    simp [intBytes, firstBytes]
  exact hsame.trans (getInt_putInt_self hlo hhi)

theorem loadInt_retval (old : ℤ) (retval : Int32) :
    loadInt old (intBytes retval.toInt) = retval.toInt :=
  loadInt_intBytes old retval.le_toInt retval.toInt_lt

namespace Link

/-! ### Reads -/

section Reads

variable {s : Link σ}

theorem read_nil (hnil : s.toClient = []) (hopen : s.server ≠ .closed) (n : ℕ) :
    s.read n = none :=
  if_pos ⟨hnil, hopen⟩

theorem read_some (hsome : s.toClient ≠ []) (n : ℕ) :
    s.read n = some (s.toClient.take n, { s with toClient := s.toClient.drop n }) :=
  if_neg fun hand ↦ hsome hand.1

/-- An integer at the front is read whole. -/
theorem read_intBytes {value : ℤ} {rest : List UInt8}
    (hfront : s.toClient = intBytes value ++ rest) :
    s.read 4 = some (intBytes value, { s with toClient := rest }) := by
  have hsome : s.toClient ≠ [] := by simp [hfront, intBytes_ne_nil]
  rw [read_some hsome, hfront, List.take_left' (length_intBytes value),
    List.drop_left' (length_intBytes value)]

end Reads

end Link

/-! ### The reply -/

section Reply

variable (s : Link σ) (ran : Ran σ)

/-- The bytes of the number of bytes that were printed. -/
def Ran.lenBytes : List UInt8 :=
  intBytes ran.prints.flatten.length

/-- The bytes of the value. -/
def Ran.retvalBytes : List UInt8 :=
  intBytes ran.retval.toInt

/-- What the client is still to read. -/
inductive Awaits (u : Link σ) (pending : List UInt8) : Prop
  | retval (hclient : u.client = .readsRetval)
    (hpending : pending = ran.retvalBytes ++ (ran.lenBytes ++ ran.prints.flatten))
    (hprinted : u.printed = s.printed) (hreturned : u.returned = s.returned)
  | len (hclient : u.client = .readsLen ran.retval.toInt)
    (hpending : pending = ran.lenBytes ++ ran.prints.flatten)
    (hprinted : u.printed = s.printed) (hreturned : u.returned = s.returned)
  | data (shown : List UInt8) (hclient : u.client = .readsData ran.retval.toInt pending.length)
    (hpending : shown ++ pending = ran.prints.flatten) (hsome : pending ≠ [])
    (hprinted : u.printed = s.printed ++ shown) (hreturned : u.returned = s.returned)
  | done (hclient : u.client = .ready) (hpending : pending = [])
    (hprinted : u.printed = s.printed ++ ran.prints.flatten)
    (hreturned : u.returned = s.returned ++ [ran.retval.toInt])

/-- What the server is still to write. -/
inductive Owes (u : Link σ) (owed : List UInt8) : Prop
  | retval (hserver : u.server = .writesRetval ran.retval)
    (howed : owed = ran.retvalBytes ++ (ran.lenBytes ++ ran.prints.flatten))
    (hbuffer : u.bpBuffer = ran.prints.flatten)
  | len (hserver : u.server = .writesLen ran.retval)
    (howed : owed = ran.lenBytes ++ ran.prints.flatten)
    (hbuffer : u.bpBuffer = ran.prints.flatten)
  | data (hserver : u.server = .writesData ran.retval) (howed : owed = ran.prints.flatten)
    (hbuffer : u.bpBuffer = ran.prints.flatten)
  | done (hserver : u.server = Link.afterReply ran.retval u.terminate) (howed : owed = [])
    (hbuffer : u.bpBuffer = [])

/-- The server has run the line, and the client has not read the whole reply: what is under way is
what the one is still to read without what the other is still to write. -/
structure Replying (cmd : List UInt8) (u : Link σ) : Prop where
  executed : u.executed = s.executed ++ [cmd]
  serverState : u.serverState = ran.state
  clientState : u.clientState = s.clientState
  terminate : u.terminate = (s.terminate || ran.terminates)
  todo : u.todo = s.todo.tail
  toServer : u.toServer = []
  exchange : ∃ pending owed, Awaits s ran u pending ∧ Owes ran u owed ∧
    u.toClient ++ owed = pending

/-- The steps that the client has left at most, when `total` bytes were printed. -/
def ClientPhase.stepsLeft (total : ℕ) : ClientPhase → ℕ
  | .ready => 0
  | .readsRetval => total + 2
  | .readsLen _ => total + 1
  | .readsData _ left => left.toNat

/-- The steps that the server has left. -/
def ServerPhase.stepsLeft : ServerPhase → ℕ
  | .writesRetval _ => 3
  | .writesLen _ => 2
  | .writesData _ => 1
  | .waits => 0
  | .closed => 0

/-- The steps that are left at most. -/
def Link.stepsLeft (u : Link σ) : ℕ :=
  u.client.stepsLeft ran.prints.flatten.length + u.server.stepsLeft

theorem afterReply_cases (retval : Int32) (terminate : Bool) :
    Link.afterReply retval terminate = .waits ∨ Link.afterReply retval terminate = .closed := by
  unfold Link.afterReply
  split_ifs <;> simp

theorem stepsLeft_afterReply (retval : Int32) (terminate : Bool) :
    (Link.afterReply retval terminate).stepsLeft = 0 := by
  rcases afterReply_cases retval terminate with h | h <;> rw [h] <;> rfl

variable {s ran} {u v : Link σ} {cmd pending owed : List UInt8}

/-- A server that has left the loop owes nothing. -/
theorem Owes.not_closed (howes : Owes ran u owed) (hsome : owed ≠ []) : u.server ≠ .closed := by
  cases howes with
  | retval hserver => rw [hserver]; exact ServerPhase.noConfusion
  | len hserver => rw [hserver]; exact ServerPhase.noConfusion
  | data hserver => rw [hserver]; exact ServerPhase.noConfusion
  | done _ howed => exact absurd howed hsome

/-! #### The server goes on -/

/-- A server that owes something has a step. -/
theorem Owes.exists_step (t : CommandTree (Handler σ)) (howes : Owes ran u owed)
    (hsome : owed ≠ []) : ∃ v, u.serverStep t = some v := by
  unfold Link.serverStep
  cases howes with
  | retval hserver => exact ⟨_, by rw [hserver]⟩
  | len hserver => exact ⟨_, by rw [hserver]⟩
  | data hserver => exact ⟨_, by rw [hserver]⟩
  | done _ howed => exact absurd howed hsome

theorem Awaits.of_server (hawaits : Awaits s ran u pending) (hclient : v.client = u.client)
    (hprinted : v.printed = u.printed) (hreturned : v.returned = u.returned) :
    Awaits s ran v pending := by
  cases hawaits with
  | retval h₁ h₂ h₃ h₄ =>
    exact .retval (hclient.trans h₁) h₂ (hprinted.trans h₃) (hreturned.trans h₄)
  | len h₁ h₂ h₃ h₄ => exact .len (hclient.trans h₁) h₂ (hprinted.trans h₃) (hreturned.trans h₄)
  | data shown h₁ h₂ h₃ h₄ h₅ =>
    exact .data shown (hclient.trans h₁) h₂ h₃ (hprinted.trans h₄) (hreturned.trans h₅)
  | done h₁ h₂ h₃ h₄ => exact .done (hclient.trans h₁) h₂ (hprinted.trans h₃) (hreturned.trans h₄)

/-- What the server writes it no longer owes. -/
theorem Replying.serverStep {t : CommandTree (Handler σ)} (hu : Replying s ran cmd u)
    (hstep : u.serverStep t = some v) :
    Replying s ran cmd v ∧ v.stepsLeft ran < u.stepsLeft ran := by
  obtain ⟨pending, owed, hawaits, howes, hstream⟩ := hu.exchange
  unfold Link.serverStep at hstep
  cases howes with
  | retval hserver howed hbuffer =>
    rw [hserver, Option.some_inj] at hstep
    subst hstep
    refine ⟨⟨hu.executed, hu.serverState, hu.clientState, hu.terminate, hu.todo, hu.toServer,
      pending, ran.lenBytes ++ ran.prints.flatten, hawaits.of_server rfl rfl rfl,
      .len rfl rfl hbuffer, ?_⟩, ?_⟩
    · rw [← hstream, howed]
      exact List.append_assoc _ _ _
    · simp only [Link.stepsLeft, hserver, ServerPhase.stepsLeft]
      omega
  | len hserver howed hbuffer =>
    rw [hserver, Option.some_inj] at hstep
    subst hstep
    refine ⟨⟨hu.executed, hu.serverState, hu.clientState, hu.terminate, hu.todo, hu.toServer,
      pending, ran.prints.flatten, hawaits.of_server rfl rfl rfl, .data rfl rfl hbuffer, ?_⟩, ?_⟩
    · rw [← hstream, howed]
      dsimp only
      rw [hbuffer]
      exact List.append_assoc _ _ _
    · simp only [Link.stepsLeft, hserver, ServerPhase.stepsLeft]
      omega
  | data hserver howed hbuffer =>
    rw [hserver, Option.some_inj] at hstep
    subst hstep
    refine ⟨⟨hu.executed, hu.serverState, hu.clientState, hu.terminate, hu.todo, hu.toServer,
      pending, [], hawaits.of_server rfl rfl rfl, .done rfl rfl rfl, ?_⟩, ?_⟩
    · rw [← hstream, howed, hbuffer, List.append_nil]
    · simp only [Link.stepsLeft, hserver, stepsLeft_afterReply]
      exact Nat.add_lt_add_left Nat.one_pos _
  | done hserver =>
    rcases afterReply_cases ran.retval u.terminate with hwaits | hclosed
    · rw [hserver, hwaits, if_pos hu.toServer] at hstep
      exact absurd hstep.symm (Option.some_ne_none v)
    · rw [hserver, hclosed] at hstep
      exact absurd hstep.symm (Option.some_ne_none v)

/-! #### The client goes on -/

theorem Owes.of_client (howes : Owes ran u owed) (hserver : v.server = u.server)
    (hterminate : v.terminate = u.terminate) (hbuffer : v.bpBuffer = u.bpBuffer) :
    Owes ran v owed := by
  cases howes with
  | retval h₁ h₂ h₃ => exact .retval (hserver.trans h₁) h₂ (hbuffer.trans h₃)
  | len h₁ h₂ h₃ => exact .len (hserver.trans h₁) h₂ (hbuffer.trans h₃)
  | data h₁ h₂ h₃ => exact .data (hserver.trans h₁) h₂ (hbuffer.trans h₃)
  | done h₁ h₂ h₃ => exact .done (by rw [hserver, h₁, hterminate]) h₂ (hbuffer.trans h₃)

theorem retvalBytes_append_ne_nil (ran : Ran σ) (rest : List UInt8) :
    ran.retvalBytes ++ rest ≠ [] :=
  List.append_ne_nil_of_left_ne_nil (intBytes_ne_nil _) rest

theorem lenBytes_append_ne_nil (ran : Ran σ) (rest : List UInt8) : ran.lenBytes ++ rest ≠ [] :=
  List.append_ne_nil_of_left_ne_nil (intBytes_ne_nil _) rest

/-- Before the value is read, nothing has come, or the whole value. -/
theorem Owes.front_retval (howes : Owes ran u owed) {stream : List UInt8}
    (hstream : stream ++ owed = ran.retvalBytes ++ (ran.lenBytes ++ ran.prints.flatten)) :
    stream = [] ∧ owed ≠ [] ∨ ∃ rest, stream = ran.retvalBytes ++ rest ∧
      rest ++ owed = ran.lenBytes ++ ran.prints.flatten := by
  cases howes with
  | retval _ howed =>
    rw [howed, List.append_left_eq_self] at hstream
    exact .inl ⟨hstream, howed ▸ retvalBytes_append_ne_nil ran _⟩
  | len _ howed =>
    rw [howed, List.append_cancel_right_eq] at hstream
    exact .inr ⟨[], by rw [hstream, List.append_nil], howed⟩
  | data _ howed =>
    rw [howed, ← List.append_assoc, List.append_cancel_right_eq] at hstream
    exact .inr ⟨ran.lenBytes, hstream, by rw [howed]⟩
  | done _ howed =>
    rw [howed, List.append_nil] at hstream
    exact .inr ⟨_, hstream, by rw [howed, List.append_nil]⟩

/-- Before the number of bytes is read, nothing has come, or the whole number. -/
theorem Owes.front_len (howes : Owes ran u owed) {stream : List UInt8}
    (hstream : stream ++ owed = ran.lenBytes ++ ran.prints.flatten) :
    stream = [] ∧ owed ≠ [] ∨ ∃ rest, stream = ran.lenBytes ++ rest ∧
      rest ++ owed = ran.prints.flatten := by
  cases howes with
  | retval _ howed =>
    have hlength := congrArg List.length hstream
    simp only [howed, List.length_append, Ran.retvalBytes, length_intBytes] at hlength
    omega
  | len _ howed =>
    rw [howed, List.append_left_eq_self] at hstream
    exact .inl ⟨hstream, howed ▸ lenBytes_append_ne_nil ran _⟩
  | data _ howed =>
    rw [howed, List.append_cancel_right_eq] at hstream
    exact .inr ⟨[], by rw [hstream, List.append_nil], howed⟩
  | done _ howed =>
    rw [howed, List.append_nil] at hstream
    exact .inr ⟨_, hstream, by rw [howed, List.append_nil]⟩

/-- While bytes are read, nothing has come, or all of them. -/
theorem Owes.front_data (howes : Owes ran u owed) {stream : List UInt8}
    (hstream : stream ++ owed = pending) (hle : pending.length ≤ ran.prints.flatten.length) :
    stream = [] ∧ owed ≠ [] ∨ stream = pending ∧ owed = [] := by
  have hlength : stream.length + owed.length = pending.length := by
    rw [← hstream, List.length_append]
  by_cases howed : owed = []
  · refine .inr ⟨?_, howed⟩
    rw [← hstream, howed, List.append_nil]
  · refine .inl ⟨List.length_eq_zero_iff.mp ?_, howed⟩
    cases howes with
    | retval _ h =>
      simp only [h, List.length_append, Ran.retvalBytes, length_intBytes] at hlength
      omega
    | len _ h =>
      simp only [h, List.length_append, Ran.lenBytes, length_intBytes] at hlength
      omega
    | data _ h =>
      rw [h] at hlength
      omega
    | done _ h => exact absurd h howed

/-- The loop over the bytes goes on as long as some are missing. -/
theorem awaits_dataLoop {shown : List UInt8} (hprinted : v.printed = s.printed ++ shown)
    (hreturned : v.returned = s.returned) (hpending : shown ++ pending = ran.prints.flatten) :
    Awaits s ran (v.dataLoop ran.retval.toInt pending.length) pending := by
  unfold Link.dataLoop
  by_cases hsome : pending = []
  · subst hsome
    rw [List.append_nil] at hpending
    rw [if_neg (by simp)]
    exact .done rfl rfl (hprinted.trans (congrArg _ hpending)) (congrArg (· ++ _) hreturned)
  · have hpos := List.length_pos_iff.mpr hsome
    rw [if_pos (by omega)]
    exact .data shown rfl hpending hsome hprinted hreturned

/-- Nothing but the client's own fields and what it reads changes. -/
theorem dataLoop_frame (w : Link σ) (retval left : ℤ) :
    w.dataLoop retval left = { w with
      client := (w.dataLoop retval left).client
      returned := (w.dataLoop retval left).returned } := by
  unfold Link.dataLoop
  split_ifs <;> rfl

theorem stepsLeft_dataLoop (w : Link σ) (retval : ℤ) (total left : ℕ) :
    (w.dataLoop retval left).client.stepsLeft total = left := by
  unfold Link.dataLoop
  split_ifs with hpos
  · rfl
  · have hzero : left = 0 := by omega
    rw [hzero]
    rfl

theorem Replying.of_client (hu : Replying s ran cmd u) {front : ClientPhase} {len : ℤ}
    {printed stream : List UInt8} {returned : List ℤ}
    (hv : v = { u with
      client := front
      len := len
      printed := printed
      returned := returned
      toClient := stream })
    (hawaits : Awaits s ran v pending) (howes : Owes ran u owed)
    (hstream : stream ++ owed = pending) : Replying s ran cmd v := by
  subst hv
  exact ⟨hu.executed, hu.serverState, hu.clientState, hu.terminate, hu.todo, hu.toServer, pending,
    owed, hawaits, howes.of_client rfl rfl rfl, hstream⟩

/-- What the loop over the bytes leaves to read is what is awaited behind it. -/
theorem Replying.dataLoop (hu : Replying s ran cmd u) {len : ℤ} {printed stream shown : List UInt8}
    (hv : v = { u with
      len := len
      printed := printed
      toClient := stream }.dataLoop ran.retval.toInt pending.length)
    (hprinted : printed = s.printed ++ shown) (hreturned : u.returned = s.returned)
    (hpending : shown ++ pending = ran.prints.flatten) (howes : Owes ran u owed)
    (hstream : stream ++ owed = pending)
    (hless : pending.length < u.client.stepsLeft ran.prints.flatten.length) :
    Replying s ran cmd v ∧ v.stepsLeft ran < u.stepsLeft ran := by
  have hframe := hv
  rw [dataLoop_frame] at hframe
  refine ⟨hu.of_client hframe ?_ howes hstream, ?_⟩
  · rw [hv]
    exact awaits_dataLoop hprinted hreturned hpending
  · have hserver : v.server = u.server := by rw [hframe]
    have hleft : v.client.stepsLeft ran.prints.flatten.length = pending.length := by
      rw [hv]
      exact stepsLeft_dataLoop _ _ _ _
    rw [Link.stepsLeft, Link.stepsLeft, hserver, hleft]
    exact Nat.add_lt_add_right hless _

/-- What the client reads is what it awaits. -/
theorem Replying.clientStep {t : CommandTree (Handler σ)} (hu : Replying s ran cmd u)
    (hready : u.client ≠ .ready) (hfit : ran.prints.flatten.length < 10240)
    (hstep : u.clientStep t = some v) :
    Replying s ran cmd v ∧ v.stepsLeft ran < u.stepsLeft ran := by
  obtain ⟨pending, owed, hawaits, howes, hstream⟩ := hu.exchange
  have hblocked (n : ℕ) (hnil : u.toClient = []) (howed : owed ≠ []) : u.read n = none :=
    Link.read_nil hnil (howes.not_closed howed) n
  unfold Link.clientStep at hstep
  cases hawaits with
  | retval hclient hpending hprinted hreturned =>
    rw [hclient] at hstep
    dsimp only at hstep
    rcases howes.front_retval (hstream.trans hpending) with ⟨hnil, howed⟩ | ⟨rest, hfront, hrest⟩
    · rw [hblocked 4 hnil howed] at hstep
      exact absurd hstep.symm (Option.some_ne_none v)
    rw [Link.read_intBytes hfront, Option.map_some, Option.some_inj, loadInt_retval] at hstep
    refine ⟨hu.of_client hstep.symm (hstep ▸ .len rfl rfl hprinted hreturned) howes hrest, ?_⟩
    rw [← hstep]
    simp only [Link.stepsLeft, hclient, ClientPhase.stepsLeft]
    omega
  | len hclient hpending hprinted hreturned =>
    rw [hclient] at hstep
    dsimp only at hstep
    rcases howes.front_len (hstream.trans hpending) with ⟨hnil, howed⟩ | ⟨rest, hfront, hrest⟩
    · rw [hblocked 4 hnil howed] at hstep
      exact absurd hstep.symm (Option.some_ne_none v)
    have hload : loadInt u.len (intBytes ran.prints.flatten.length) = ran.prints.flatten.length :=
      loadInt_intBytes _ (by omega) (by omega)
    rw [Link.read_intBytes hfront, Option.map_some, Option.some_inj, hload] at hstep
    refine hu.dataLoop hstep.symm (?_ : _ = s.printed ++ []) hreturned (List.nil_append _) howes
      hrest ?_
    · rw [hprinted, List.append_nil]
    · rw [hclient]
      exact Nat.lt_succ_self _
  | data shown hclient hpending hsome hprinted hreturned =>
    rw [hclient] at hstep
    dsimp only at hstep
    have hle : pending.length ≤ ran.prints.flatten.length := by
      rw [← hpending, List.length_append]
      omega
    rcases howes.front_data hstream hle with ⟨hnil, howed⟩ | ⟨hall, hnone⟩
    · rw [hblocked _ hnil howed] at hstep
      exact absurd hstep.symm (Option.some_ne_none v)
    have hpos := List.length_pos_iff.mpr hsome
    generalize hn : (if (pending.length : ℤ) > 1023 then 1023 else (pending.length : ℤ).toNat) = n
      at hstep
    have hread : 0 < n ∧ n ≤ pending.length := by
      split_ifs at hn <;> omega
    have htake : pending.take n ≠ [] := by
      rw [← List.length_pos_iff, List.length_take]
      omega
    have hleft : (pending.length : ℤ) - (pending.take n).length = (pending.drop n).length := by
      rw [List.length_take, List.length_drop]
      omega
    rw [Link.read_some (hall ▸ hsome), Option.map_some, Option.some_inj, hall] at hstep
    dsimp only at hstep
    rw [if_neg htake, hleft] at hstep
    refine hu.dataLoop hstep.symm (?_ : _ = s.printed ++ (shown ++ pending.take n)) hreturned ?_
      howes ?_ ?_
    · rw [hprinted, List.append_assoc]
    · rw [List.append_assoc, List.take_append_drop, hpending]
    · rw [hnone, List.append_nil]
    · rw [hclient, List.length_drop]
      exact Nat.sub_lt hpos hread.1
  | done hclient => exact absurd hclient hready

/-! #### To the end -/

theorem serverNext_afterReply {retval : Int32}
    (hserver : u.server = Link.afterReply retval u.terminate) :
    u.serverNext = Link.afterReply retval u.terminate := by
  unfold Link.serverNext
  rcases afterReply_cases retval u.terminate with h | h
  · rw [hserver, h]
  · rw [hserver, h]

/-- When the client's call has returned, the reply has been read whole. -/
theorem Replying.executed_of_ready (hu : Replying s ran cmd u) (hready : u.client = .ready) :
    Executed s cmd ran u := by
  obtain ⟨pending, owed, hawaits, howes, hstream⟩ := hu.exchange
  cases hawaits with
  | retval hclient => rw [hclient] at hready; exact ClientPhase.noConfusion hready
  | len hclient => rw [hclient] at hready; exact ClientPhase.noConfusion hready
  | data _ hclient => rw [hclient] at hready; exact ClientPhase.noConfusion hready
  | done _ hpending hprinted hreturned =>
    rw [hpending, List.append_eq_nil_iff] at hstream
    obtain ⟨htoClient, hnil⟩ := hstream
    have hend : u.bpBuffer = [] ∧ u.serverNext = Link.afterReply ran.retval u.terminate := by
      cases howes with
      | retval _ howed => exact absurd (howed.symm.trans hnil) (retvalBytes_append_ne_nil ran _)
      | len _ howed => exact absurd (howed.symm.trans hnil) (lenBytes_append_ne_nil ran _)
      | data hserver howed hbuffer =>
        refine ⟨hbuffer.trans (howed.symm.trans hnil), ?_⟩
        rw [Link.serverNext, hserver]
      | done hserver _ hbuffer => exact ⟨hbuffer, serverNext_afterReply hserver⟩
    exact ⟨hu.executed, hprinted, hreturned, hu.serverState, hu.clientState, hu.terminate, hu.todo,
      hready, hu.toServer, htoClient, hend.1, hend.2⟩

/-- As long as the client's call has not returned, one of the two goes on. -/
theorem Replying.exists_step (t : CommandTree (Handler σ)) (hu : Replying s ran cmd u)
    (hready : u.client ≠ .ready) : ∃ party v, linkStep t u party = some v := by
  obtain ⟨pending, owed, hawaits, howes, hstream⟩ := hu.exchange
  by_cases howed : owed = []
  · rw [howed, List.append_nil] at hstream
    have hread (n : ℕ) (hsome : pending ≠ []) :=
      Link.read_some (hstream ▸ hsome : u.toClient ≠ []) n
    refine ⟨.client, ?_⟩
    unfold linkStep Link.clientStep
    cases hawaits with
    | retval hclient hpending =>
      rw [hclient, hread 4 (hpending ▸ retvalBytes_append_ne_nil ran _)]
      exact ⟨_, rfl⟩
    | len hclient hpending =>
      rw [hclient, hread 4 (hpending ▸ lenBytes_append_ne_nil ran _)]
      exact ⟨_, rfl⟩
    | data _ hclient _ hsome =>
      rw [hclient]
      dsimp only
      rw [hread _ hsome]
      exact ⟨_, rfl⟩
    | done hclient => exact absurd hclient hready
  · exact ⟨.server, howes.exists_step t howed⟩

/-- Once the server has run the line, every run comes to the end of the client's call. -/
theorem Replying.inevitable (t : CommandTree (Handler σ)) (hu : Replying s ran cmd u)
    (hfit : ran.prints.flatten.length < 10240) :
    Inevitable (linkStep t) (Executed s cmd ran) u := by
  refine inevitable_of_measure (Replying s ran cmd) (Link.stepsLeft ran) (fun w hw ↦ ?_) hu
  by_cases hready : w.client = .ready
  · exact .inl (hw.executed_of_ready hready)
  · refine .inr ⟨hw.exists_step t hready, fun party v hstep ↦ ?_⟩
    cases party with
    | client => exact hw.clientStep hready hfit hstep
    | server => exact hw.serverStep hstep

end Reply

/-! ### The request -/

section Request

variable {t : CommandTree (Handler σ)} {s u : Link σ} {cmd : List UInt8} {todo : List (List UInt8)}

/-- What is printed fits `bp_buffer`. -/
theorem foldlM_bprint (prints : List (List UInt8)) (bpBuffer : List UInt8)
    (hfit : bpBuffer.length + prints.flatten.length < 10240) :
    prints.foldlM bprint bpBuffer = some (bpBuffer ++ prints.flatten) := by
  induction prints generalizing bpBuffer with
  | nil => simp
  | cons bytes prints ih =>
    rw [List.flatten_cons, List.length_append] at hfit
    have hfirst : bprint bpBuffer bytes = some (bpBuffer ++ bytes) := if_pos (by omega)
    rw [List.foldlM_cons, hfirst, Option.bind_eq_bind, Option.bind_some,
      ih _ (by rw [List.length_append]; omega), List.flatten_cons, List.append_assoc]

/-- A line with a command has characters. -/
theorem IsRemote.ne_nil (hremote : IsRemote t cmd) : cmd ≠ [] := by
  rintro rfl
  obtain ⟨command, hfind, _⟩ := hremote
  rw [findMatchAsPossible_eq] at hfind
  exact Option.some_ne_none command hfind.symm

/-- The client sends the line. -/
theorem startLine_of_isRemote (hremote : IsRemote t cmd) (s : Link σ) :
    s.startLine t cmd = { s with client := .readsRetval, toServer := s.toServer ++ cmd } := by
  obtain ⟨⟨n, command⟩, hfind, hfunc, hrmt⟩ := hremote
  obtain ⟨func, hfunc⟩ := Option.ne_none_iff_exists'.mp hfunc
  rw [Option.mem_def] at hfind
  simp only [Link.startLine, hfind, hfunc, if_neg hrmt]

/-- The first line to do has been sent. -/
def Link.request (s : Link σ) (cmd : List UInt8) (todo : List (List UInt8)) : Link σ :=
  { s with client := .readsRetval, todo := todo, toServer := cmd }

/-- What makes a line one that is executed as it is locally: it is for a remote command, one `read`
returns it, and what is printed fits `bp_buffer`. -/
structure Fits (t : CommandTree (Handler σ)) (state : σ) (line : CString) : Prop where
  remote : IsRemote t line.chars
  length_le : line.chars.length ≤ 4095
  prints_le : (executeLine t state line.chars).prints.flatten.length ≤ 10239

variable {line : CString}

/-- What one `read` returns of a line is the string that the server runs. -/
theorem CString.takeWhile_take (line : CString) (n : ℕ) :
    (line.chars.take n).takeWhile (· ≠ 0) = line.chars.take n := by
  rw [List.takeWhile_eq_self_iff]
  exact fun c hc ↦ decide_eq_true fun hzero ↦
    line.nonzero (hzero ▸ List.mem_of_mem_take hc)

/-- The server runs the line. -/
theorem replying_of_request (hs : InSync s) (hfits : Fits t s.serverState line)
    (hwaits : s.server = .waits) (htodo : s.todo = line.chars :: todo) :
    ∃ v, (s.request line.chars todo).serverStep t = some v ∧
      Replying s (executeLine t s.serverState line.chars) line.chars v := by
  have htake : line.chars.take 4095 = line.chars := List.take_of_length_le hfits.length_le
  have hstring := line.takeWhile_take 4095
  rw [htake] at hstring
  have hroom : ([] : List UInt8).length +
      (executeLine t s.serverState line.chars).prints.flatten.length < 10240 := by
    have := hfits.prints_le
    rw [List.length_nil]
    omega
  have hdrop : line.chars.drop 4095 = [] := List.drop_eq_nil_of_le hfits.length_le
  unfold Link.serverStep Link.request
  dsimp only
  rw [hwaits, if_neg hfits.remote.ne_nil, htake, hstring, hs.bpBuffer, foldlM_bprint _ [] hroom,
    hdrop]
  refine ⟨_, rfl, rfl, rfl, rfl, rfl, by rw [htodo]; rfl, rfl, ?_⟩
  exact ⟨_, _, .retval rfl rfl rfl rfl, .retval rfl rfl rfl, by rw [hs.toClient]; rfl⟩

/-- A server that is to wait next waits, or goes on to wait. -/
theorem Link.waits_or_writes (hnext : u.serverNext = .waits) :
    u.server = .waits ∨ ∃ retval, u.server = .writesData retval ∧
      Link.afterReply retval u.terminate = .waits := by
  unfold Link.serverNext at hnext
  cases hserver : u.server with
  | waits => exact .inl rfl
  | writesData retval =>
    rw [hserver] at hnext
    exact .inr ⟨retval, rfl, hnext⟩
  | writesRetval retval => rw [hserver] at hnext; exact ServerPhase.noConfusion hnext
  | writesLen retval => rw [hserver] at hnext; exact ServerPhase.noConfusion hnext
  | closed => rw [hserver] at hnext; exact ServerPhase.noConfusion hnext

theorem Link.open_of_serverNext (hnext : u.serverNext = .waits) : u.server ≠ .closed := by
  rcases Link.waits_or_writes hnext with hwaits | ⟨retval, hwrites, _⟩
  · rw [hwaits]
    exact ServerPhase.noConfusion
  · rw [hwrites]
    exact ServerPhase.noConfusion

/-- A client that is to read the value waits for it. -/
theorem clientStep_blocked (hreads : u.client = .readsRetval) (hnil : u.toClient = [])
    (hnext : u.serverNext = .waits) : u.clientStep t = none := by
  simp only [Link.clientStep, hreads, Link.read_nil hnil (Link.open_of_serverNext hnext),
    Option.map_none]

/-- With the line sent and the server waiting, the server moves first. -/
theorem inevitable_request (hs : InSync s) (hfits : Fits t s.serverState line)
    (hwaits : s.server = .waits) (htodo : s.todo = line.chars :: todo) :
    Inevitable (linkStep t) (Executed s line.chars (executeLine t s.serverState line.chars))
      (s.request line.chars todo) := by
  obtain ⟨v, hstep, hreplying⟩ := replying_of_request hs hfits hwaits htodo
  refine .of_only .server hstep (fun other hother ↦ ?_) ?_
  · cases other with
    | server => exact absurd rfl hother
    | client =>
      exact clientStep_blocked (t := t) (u := s.request line.chars todo) rfl hs.toClient hs.server
  · exact hreplying.inevitable t (Nat.lt_succ_of_le hfits.prints_le)

/-- A server that has nothing left to write goes on to wait. -/
theorem serverStep_nothing {retval : Int32} (hserver : u.server = .writesData retval)
    (hafter : Link.afterReply retval u.terminate = .waits) (hbuffer : u.bpBuffer = []) :
    u.serverStep t = some { u with server := .waits } := by
  simp only [Link.serverStep, hserver, hbuffer, hafter, List.append_nil]

theorem InSync.waiting (hs : InSync s) : InSync { s with server := .waits } :=
  ⟨hs.client, hs.toServer, hs.toClient, hs.bpBuffer, rfl⟩

/-- The effect does not depend on where the server was. -/
theorem Executed.of_waiting {ran : Ran σ} (h : Executed { s with server := .waits } cmd ran u) :
    Executed s cmd ran u :=
  ⟨h.executed, h.printed, h.returned, h.serverState, h.clientState, h.terminate, h.todo, h.client,
    h.toServer, h.toClient, h.bpBuffer, h.server⟩

/-- The client sends the line. -/
theorem clientStep_request (hs : InSync s) (hremote : IsRemote t line.chars)
    (htodo : s.todo = line.chars :: todo) :
    s.clientStep t = some (s.request line.chars todo) := by
  simp only [Link.clientStep, hs.client, htodo, startLine_of_isRemote hremote, hs.toServer,
    List.nil_append, Link.request]

/-- From a connection in sync with a waiting server. -/
theorem inevitable_of_waits (hs : InSync s) (hfits : Fits t s.serverState line)
    (hwaits : s.server = .waits) (htodo : s.todo = line.chars :: todo) :
    Inevitable (linkStep t) (Executed s line.chars (executeLine t s.serverState line.chars)) s := by
  refine .of_only .client (clientStep_request hs hfits.remote htodo) (fun other hother ↦ ?_)
    (inevitable_request hs hfits hwaits htodo)
  cases other with
  | client => exact absurd rfl hother
  | server => simp only [linkStep, Link.serverStep, hwaits, hs.toServer, if_pos]

/-- From a connection in sync, a line that fits is executed along every run, whether the server has
come to wait already or does so later. -/
theorem inevitable_executed (hs : InSync s) (hfits : Fits t s.serverState line)
    (htodo : s.todo = line.chars :: todo) :
    Inevitable (linkStep t) (Executed s line.chars (executeLine t s.serverState line.chars)) s := by
  rcases Link.waits_or_writes hs.server with hwaits | ⟨retval, hwrites, hafter⟩
  · exact inevitable_of_waits hs hfits hwaits htodo
  have hnext : s.serverStep t = some { s with server := .waits } :=
    serverStep_nothing hwrites hafter hs.bpBuffer
  have hrequest : (s.request line.chars todo).serverStep t =
      some ({ s with server := .waits }.request line.chars todo) :=
    serverStep_nothing (u := s.request line.chars todo) hwrites hafter hs.bpBuffer
  refine .later ⟨.server, _, hnext⟩ fun party v hstep ↦ ?_
  cases party with
  | server =>
    rw [linkStep, hnext, Option.some_inj] at hstep
    rw [← hstep]
    exact (inevitable_of_waits hs.waiting hfits rfl htodo).trans fun _ h ↦ .now h.of_waiting
  | client =>
    rw [linkStep, clientStep_request hs hfits.remote htodo, Option.some_inj] at hstep
    rw [← hstep]
    refine .of_only .server hrequest (fun other hother ↦ ?_)
      ((inevitable_request hs.waiting hfits rfl htodo).trans fun _ h ↦ .now h.of_waiting)
    cases other with
    | server => exact absurd rfl hother
    | client =>
      exact clientStep_blocked (t := t) (u := s.request line.chars todo) rfl hs.toClient hs.server

end Request

/-! ### Lines that do not fit -/

section Limits

variable {t : CommandTree (Handler σ)} {s u v : Link σ} {line : CString}
  {todo : List (List UInt8)}

/-- What is printed runs past `bp_buffer`. -/
theorem foldlM_bprint_eq_none (prints : List (List UInt8)) (bpBuffer : List UInt8)
    (hroom : bpBuffer.length < 10240) (hover : 10240 ≤ bpBuffer.length + prints.flatten.length) :
    prints.foldlM bprint bpBuffer = none := by
  induction prints generalizing bpBuffer with
  | nil =>
    rw [List.flatten_nil, List.length_nil] at hover
    omega
  | cons bytes prints ih =>
    rw [List.flatten_cons, List.length_append] at hover
    rw [List.foldlM_cons, bprint]
    split_ifs with hfirst
    · rw [Option.bind_eq_bind, Option.bind_some]
      refine ih _ (by rwa [List.length_append]) ?_
      rw [List.length_append]
      omega
    · rfl

theorem Link.read_executed {n : ℕ} {r : List UInt8 × Link σ} (hread : u.read n = some r) :
    r.2.executed = u.executed := by
  unfold Link.read at hread
  split_ifs at hread
  rw [← Option.some_inj.mp hread]

theorem Link.startLine_executed (u : Link σ) (cmd : List UInt8) :
    (u.startLine t cmd).executed = u.executed := by
  unfold Link.startLine
  split
  · rfl
  · split
    · rfl
    · split_ifs <;> rfl

/-- The client runs nothing on the server. -/
theorem clientStep_executed (hstep : u.clientStep t = some v) : v.executed = u.executed := by
  have hloop (w : Link σ) (retval left : ℤ) : (w.dataLoop retval left).executed = w.executed := by
    rw [dataLoop_frame]
  unfold Link.clientStep at hstep
  cases hclient : u.client with
  | ready =>
    rw [hclient] at hstep
    cases htodo : u.todo with
    | nil =>
      rw [htodo] at hstep
      exact absurd hstep.symm (Option.some_ne_none v)
    | cons cmd todo =>
      rw [htodo, Option.some_inj] at hstep
      rw [← hstep]
      exact Link.startLine_executed _ cmd
  | readsRetval =>
    rw [hclient] at hstep
    obtain ⟨r, hread, rfl⟩ := Option.map_eq_some_iff.mp hstep
    exact Link.read_executed hread
  | readsLen retval =>
    rw [hclient] at hstep
    obtain ⟨r, hread, rfl⟩ := Option.map_eq_some_iff.mp hstep
    have hsame := Link.read_executed hread
    rw [hloop]
    exact hsame
  | readsData retval left =>
    rw [hclient] at hstep
    obtain ⟨r, hread, rfl⟩ := Option.map_eq_some_iff.mp hstep
    split_ifs
    · exact Link.read_executed hread
    · have hsame := Link.read_executed hread
      rw [hloop]
      exact hsame

/-- What the server does when it runs a line. -/
theorem serverStep_waits (hwaits : u.server = .waits) (hstep : u.serverStep t = some v) :
    u.toServer ≠ [] ∧
      v.executed = u.executed ++ [(u.toServer.take 4095).takeWhile (· ≠ 0)] ∧
      (executeLine t u.serverState ((u.toServer.take 4095).takeWhile (· ≠ 0))).prints.foldlM bprint
        u.bpBuffer = some v.bpBuffer := by
  unfold Link.serverStep at hstep
  rw [hwaits] at hstep
  dsimp only at hstep
  split_ifs at hstep with hnil
  obtain ⟨bpBuffer, hprints, rfl⟩ := Option.map_eq_some_iff.mp hstep
  exact ⟨hnil, rfl, hprints⟩

/-- What the server has run stays run. -/
theorem linkStep_executed {party : Party} (hstep : linkStep t u party = some v) :
    u.executed <+: v.executed := by
  cases party with
  | client => rw [clientStep_executed hstep]
  | server =>
    have hserver : u.serverStep t = some v := hstep
    cases hphase : u.server with
    | waits =>
      rw [(serverStep_waits hphase hserver).2.1]
      exact List.prefix_append _ _
    | closed =>
      rw [Link.serverStep, hphase] at hserver
      exact absurd hserver.symm (Option.some_ne_none v)
    | writesRetval | writesLen | writesData =>
      rw [Link.serverStep, hphase, Option.some_inj] at hserver
      rw [← hserver]

/-- The server has not run the line, or has run the part of it that one `read` returns. -/
inductive Unmet (s : Link σ) (line : CString) (u : Link σ) : Prop
  | before (hexecuted : u.executed = s.executed)
    (hsent : u.client = .ready ∧ u.todo = s.todo ∧ u.toServer = [] ∨
      u.client = .readsRetval ∧ u.toServer = line.chars)
    (htoClient : u.toClient = []) (hstate : u.serverState = s.serverState)
    (hbuffer : u.bpBuffer = []) (hnext : u.serverNext = .waits)
  | cut (hlong : 4095 < line.chars.length)
    (hexecuted : s.executed ++ [line.chars.take 4095] <+: u.executed)

theorem Unmet.not_executed {ran : Ran σ} (hu : Unmet s line u) :
    ¬Executed s line.chars ran u := by
  intro h
  cases hu with
  | before hexecuted =>
    have hlength := congrArg List.length (hexecuted.symm.trans h.executed)
    rw [List.length_append, List.length_singleton] at hlength
    omega
  | cut hlong hexecuted =>
    rw [h.executed] at hexecuted
    have hsame := (List.prefix_append_right_inj _).mp hexecuted
    have htake : line.chars.take 4095 = line.chars := by simpa using hsame
    have hlength := congrArg List.length htake
    rw [List.length_take] at hlength
    omega

/-- A line that does not fit is never run whole. -/
theorem Unmet.linkStep (hremote : IsRemote t line.chars) (htodo : s.todo = line.chars :: todo)
    (hnot : ¬Fits t s.serverState line) {party : Party} (hu : Unmet s line u)
    (hstep : linkStep t u party = some v) : Unmet s line v := by
  cases hu with
  | cut hlong hexecuted => exact .cut hlong (hexecuted.trans (linkStep_executed hstep))
  | before hexecuted hsent htoClient hstate hbuffer hnext =>
    cases party with
    | client =>
      have hclient : u.clientStep t = some v := hstep
      rcases hsent with ⟨hready, htodo', hnil⟩ | ⟨hreads, hsent⟩
      · rw [Link.clientStep, hready, htodo', htodo] at hclient
        dsimp only at hclient
        rw [startLine_of_isRemote hremote, hnil, Option.some_inj] at hclient
        rw [← hclient]
        exact .before hexecuted (.inr ⟨rfl, rfl⟩) htoClient hstate hbuffer hnext
      · rw [clientStep_blocked hreads htoClient hnext] at hclient
        exact absurd hclient.symm (Option.some_ne_none v)
    | server =>
      have hserver : u.serverStep t = some v := hstep
      rcases Link.waits_or_writes hnext with hwaits | ⟨retval, hwrites, hafter⟩
      · obtain ⟨hsome, hexecuted', hprints⟩ := serverStep_waits hwaits hserver
        rcases hsent with ⟨_, _, hnil⟩ | ⟨_, hsent⟩
        · exact absurd hnil hsome
        rw [hsent, hexecuted] at hexecuted'
        rw [hsent, hstate, hbuffer] at hprints
        rw [line.takeWhile_take] at hexecuted' hprints
        by_cases hlong : 4095 < line.chars.length
        · exact .cut hlong (hexecuted' ▸ List.prefix_rfl)
        · have hwhole : line.chars.take 4095 = line.chars := List.take_of_length_le (by omega)
          have hover : 10239 < (executeLine t s.serverState line.chars).prints.flatten.length := by
            by_contra hle
            exact hnot ⟨hremote, by omega, by omega⟩
          rw [hwhole, foldlM_bprint_eq_none _ [] (by decide) (by rw [List.length_nil]; omega)]
            at hprints
          exact absurd hprints.symm (Option.some_ne_none _)
      · rw [serverStep_nothing hwrites hafter hbuffer, Option.some_inj] at hserver
        rw [← hserver]
        exact .before hexecuted hsent htoClient hstate hbuffer rfl

/-- The lines that are executed as they are locally are exactly those that one `read` returns and
whose output fits `bp_buffer`. -/
theorem inevitable_executed_iff (hs : InSync s) (hremote : IsRemote t line.chars)
    (htodo : s.todo = line.chars :: todo) :
    Inevitable (linkStep t) (Executed s line.chars (executeLine t s.serverState line.chars)) s ↔
      Fits t s.serverState line := by
  refine ⟨fun hinevitable ↦ ?_, fun hfits ↦ inevitable_executed hs hfits htodo⟩
  by_contra hnot
  obtain ⟨events, u, hrun, hexecuted⟩ := hinevitable.exists_run
  have hstart : Unmet s line s :=
    .before rfl (.inl ⟨hs.client, rfl, hs.toServer⟩) hs.toClient rfl hs.bpBuffer hs.server
  have hunmet : Unmet s line u :=
    run_invariant (fun _ _ _ hu hstep ↦ hu.linkStep hremote htodo hnot hstep) hstart hrun
  exact hunmet.not_executed hexecuted

end Limits

/-! ### Local and remote -/

section Sessions

variable {t : CommandTree (Handler σ)} {s u : Link σ} {cmd : List UInt8} {ran : Ran σ}

theorem afterReply_eq_waits_iff (retval : Int32) (terminate : Bool) :
    Link.afterReply retval terminate = .waits ↔ retval ≠ 0 ∧ terminate = false := by
  unfold Link.afterReply
  by_cases hretval : retval = 0
  · simp [hretval]
  · cases terminate <;> simp [hretval]

/-- After a command the connection is in sync unless the server leaves its loop. -/
theorem Executed.inSync_iff (h : Executed s cmd ran u) :
    InSync u ↔ ran.retval ≠ 0 ∧ u.terminate = false := by
  rw [← afterReply_eq_waits_iff, ← h.server]
  exact ⟨InSync.server, fun hnext ↦ ⟨h.client, h.toServer, h.toClient, h.bpBuffer, hnext⟩⟩

/-- What lines come to in one process, one after the other. -/
def executeLines (t : CommandTree (Handler σ)) : σ → List CString → List (Ran σ)
  | _, [] => []
  | state, line :: lines =>
    let ran := executeLine t state line.chars
    ran :: executeLines t ran.state lines

/-- Every line fits, and none ends the server. -/
def AllFit (t : CommandTree (Handler σ)) : σ → List CString → Prop
  | _, [] => True
  | state, line :: lines =>
    let ran := executeLine t state line.chars
    Fits t state line ∧ ran.retval ≠ 0 ∧ ran.terminates = false ∧ AllFit t ran.state lines

/-- A whole session: the lines are executed in order, each once, with the effect that they have in
one process, and the connection is in sync at the end. -/
theorem session_execution (lines : List CString) (hs : InSync s) (hterminate : s.terminate = false)
    (htodo : s.todo = lines.map CString.chars) (hfit : AllFit t s.serverState lines) :
    Inevitable (linkStep t) (fun u ↦ InSync u ∧ u.todo = [] ∧
      u.executed = s.executed ++ lines.map CString.chars ∧
      u.printed = s.printed ++ (executeLines t s.serverState lines).flatMap (·.prints.flatten) ∧
      u.returned = s.returned ++ (executeLines t s.serverState lines).map (·.retval.toInt)) s := by
  induction lines generalizing s with
  | nil =>
    refine .now ⟨hs, htodo, ?_, ?_, ?_⟩
    · simp
    · simp [executeLines]
    · simp [executeLines]
  | cons line lines ih =>
    obtain ⟨hline, hretval, hterminates, hlater⟩ := hfit
    refine (inevitable_executed hs hline htodo).trans fun u hu ↦ ?_
    have hterminate' : u.terminate = false := by
      rw [hu.terminate, hterminate, hterminates]
      rfl
    have hrest := ih (hu.inSync_iff.mpr ⟨hretval, hterminate'⟩) hterminate'
      (by rw [hu.todo, htodo]; rfl) (hu.serverState ▸ hlater)
    refine hrest.trans fun v ⟨hv, htodo', hexecuted, hprinted, hreturned⟩ ↦ .now ⟨hv, htodo', ?_⟩
    rw [hexecuted, hprinted, hreturned, hu.executed, hu.printed, hu.returned, hu.serverState]
    simp [executeLines, List.append_assoc]

/-- A line for a remote command, of at most 4095 bytes, with a command that prints at most 10239
bytes: along every run from a connection in sync the server runs that line, once; the client prints
what the command prints, and returns its value; then nothing is under way, and the connection is in
sync for the next line unless the value is 0 or `terminate` is set, where the server leaves its
loop. -/
theorem remote_execution (t : CommandTree (Handler σ)) (s : Link σ) (line : CString)
    (todo : List (List UInt8)) (hs : InSync s) (hfits : Fits t s.serverState line)
    (htodo : s.todo = line.chars :: todo) :
    Inevitable (linkStep t) (fun u ↦
      Executed s line.chars (executeLine t s.serverState line.chars) u ∧
        (InSync u ↔ (executeLine t s.serverState line.chars).retval ≠ 0 ∧ u.terminate = false)) s :=
  (inevitable_executed hs hfits htodo).trans fun _ hu ↦ .now ⟨hu, hu.inSync_iff⟩

/-- What a line comes to whose longest match has a function. -/
theorem executeLine_of_longestMatch {state : σ} {n : ℕ} {found : CommandTree (Handler σ)}
    {func : Handler σ} (hmatch : Trie.LongestMatch t (lineKeys cmd) n found)
    (hfunc : found.value.func = some func) :
    executeLine t state cmd = func state (argument cmd n) := by
  simp only [executeLine, findMatchAsPossible_of_longestMatch hmatch, hfunc]
  rw [nthwordptr_succ, argument]

theorem isRemote_of_longestMatch {n : ℕ} {found : CommandTree (Handler σ)}
    (hmatch : Trie.LongestMatch t (lineKeys cmd) n found) (hfunc : found.value.func ≠ none)
    (hrmt : found.value.isRmt ≠ 0) : IsRemote t cmd :=
  ⟨(n, found), findMatchAsPossible_of_longestMatch hmatch, hfunc, hrmt⟩

end Sessions

/-- A client and a server that have just been connected. -/
def freshLink (todo : List (List UInt8)) : Link Unit where
  client := .ready
  todo := todo
  len := 0
  clientState := ()
  printed := []
  returned := []
  server := .waits
  serverState := ()
  terminate := false
  bpBuffer := []
  executed := []
  toServer := []
  toClient := []

/-- A remote command `echo`, which prints its argument. -/
def echoCall : AddCall (Handler Unit) where
  cmd := ⟨ascii "echo", by decide, by decide⟩
  rmt := 1
  cmdfunc := some fun state arg ↦ ⟨1, [arg.getD []], state, false⟩
  doc := none
  args := 1
  cmdtype := 0
  some_word := by decide
  word_length := by decide

/-- A remote command `quit`, which returns 0. -/
def quitCall : AddCall (Handler Unit) where
  cmd := ⟨ascii "quit", by decide, by decide⟩
  rmt := 1
  cmdfunc := some fun state _ ↦ ⟨0, [], state, false⟩
  doc := none
  args := 0
  cmdtype := 0
  some_word := by decide
  word_length := by decide

/-- The line `echo hi`. -/
def echoLine : CString :=
  ⟨ascii "echo hi", by decide, by decide⟩

theorem longestMatch_echo : Trie.LongestMatch (commandTree [echoCall]) (lineKeys echoLine.chars) 1
    (.node echoCall.leaf []) := by
  have hkeys : lineKeys echoLine.chars = [ascii "echo", ascii "hi"] := by decide
  rw [hkeys]
  exact longestMatch_singleton (by decide) _

theorem fits_echo : Fits (commandTree [echoCall]) () echoLine where
  remote := isRemote_of_longestMatch longestMatch_echo (Option.some_ne_none _) Int.one_ne_zero
  length_le := by decide
  prints_le := by
    rw [executeLine_of_longestMatch longestMatch_echo rfl]
    decide

/-- The line `echo hi` is executed. -/
theorem remote_execution_echo :
    Inevitable (linkStep (commandTree [echoCall])) (fun u ↦
      Executed (freshLink [echoLine.chars]) echoLine.chars
          (executeLine (commandTree [echoCall]) () echoLine.chars) u ∧
        (InSync u ↔ (executeLine (commandTree [echoCall]) () echoLine.chars).retval ≠ 0 ∧
          u.terminate = false)) (freshLink [echoLine.chars]) :=
  remote_execution (commandTree [echoCall]) (freshLink [echoLine.chars]) echoLine []
    ⟨rfl, rfl, rfl, rfl, rfl⟩ fits_echo rfl

/-- After `quit`, which returns 0, the connection is not in sync for a next line: the server leaves
its loop. -/
theorem not_in_sync_after_quit :
    ∃ events u, run (linkStep (commandTree [quitCall])) (freshLink [ascii "quit"]) events = some u ∧
      u.executed = [ascii "quit"] ∧ u.returned = [0] ∧ u.client = .ready ∧
      u.serverNext = .closed ∧ ¬InSync u := by
  have hmatch : Trie.LongestMatch (commandTree [quitCall]) (lineKeys quitCall.cmd.chars) 1
      (.node quitCall.leaf []) := by
    have hkeys : lineKeys quitCall.cmd.chars = [ascii "quit"] := by decide
    rw [hkeys]
    exact longestMatch_singleton (by decide) _
  have hran : executeLine (commandTree [quitCall]) () quitCall.cmd.chars = ⟨0, [], (), false⟩ :=
    executeLine_of_longestMatch hmatch rfl
  have hfits : Fits (commandTree [quitCall]) () quitCall.cmd :=
    ⟨isRemote_of_longestMatch hmatch (Option.some_ne_none _) Int.one_ne_zero, by decide,
      by rw [hran]; decide⟩
  have hs : InSync (freshLink [ascii "quit"]) := ⟨rfl, rfl, rfl, rfl, rfl⟩
  obtain ⟨events, u, hrun, hu⟩ := (inevitable_executed hs hfits rfl).exists_run
  have hreturned := hu.returned
  have hserver := hu.server
  have hsync := hu.inSync_iff
  rw [show (freshLink [ascii "quit"]).serverState = () from rfl, hran] at hreturned hserver hsync
  exact ⟨events, u, hrun, hu.executed, hreturned, hu.client, hserver, fun h ↦ (hsync.mp h).1 rfl⟩

end Katmai.Cmdlintf
