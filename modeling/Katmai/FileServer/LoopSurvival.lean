import Katmai.FileServer.MainLoop

/-!
# The main loops survive hostile datagrams

Version 2 leaves its loop on a datagram with a wrong checksum and on a datagram that comes while
services are stopped. That does not end the server: `streamio_v2_main` returns `0`, and
`thread_svc_main` calls it again. `Alive` is the invariant of a worker that nobody has asked to
stop, `alive_run` shows that it holds after every sequence of datagrams, and `alive_receives` that a
worker in such a state is back in `recv` after at most three steps.

`mainLoops_survive_datagrams` is the result for both versions: whatever was received, and however
often services were stopped and resumed, the worker has not ended, it receives the next datagram,
and with services running it answers a `FINDSERVER` as a server does that has received nothing. Only
a request that leads out of the arrays of version 3 has no defined behaviour; a wrong checksum, an
unknown command and an arrival while services are stopped never do that.
-/

set_option autoImplicit false
set_option relaxedAutoImplicit false

namespace Katmai.FileServer

open Foundation

/-! ### The worker -/

section Worker

variable {σ Env : Type*} {dispatch : Bool → σ → Env → Received → Option (Handled σ)}

/-- A worker that nobody has asked to stop, at any place of its loops. -/
structure Alive (s : LoopServer σ) : Prop where
  thr_running : s.thrTerminate = false
  pd_running : s.pdTerminate = false
  pc_inside : s.pc = .svcTest ∨ s.pc = .mainTest ∨ s.pc = .receiving ∨ s.pc = .returned 0

/-- An alive worker has not ended. -/
theorem Alive.pc_ne_ended {s : LoopServer σ} (hs : Alive s) : s.pc ≠ .ended := by
  obtain hpc | hpc | hpc | hpc := hs.pc_inside <;> rw [hpc] <;> decide

/-- A new worker is alive. -/
theorem alive_startServer (state : σ) : Alive (startServer state) :=
  ⟨rfl, rfl, Or.inl rfl⟩

/-- A worker that moves by itself stays inside its loops. -/
theorem alive_work {s : LoopServer σ} (hs : Alive s) :
    Alive { s with pc := workerStep s.thrTerminate s.pdTerminate s.pc } := by
  refine ⟨hs.thr_running, hs.pd_running, ?_⟩
  show workerStep s.thrTerminate s.pdTerminate s.pc = _ ∨ _
  rw [hs.thr_running, hs.pd_running]
  obtain hpc | hpc | hpc | hpc := hs.pc_inside
  · rw [hpc]
    exact Or.inr (Or.inl rfl)
  · rw [hpc]
    exact Or.inr (Or.inr (Or.inl rfl))
  · rw [hpc]
    exact Or.inr (Or.inr (Or.inl rfl))
  · rw [hpc]
    exact Or.inl rfl

/-- What the handling of a datagram does to the server: it ends at the test of the loop, or with a
return of `0`. -/
theorem datagram_cases {s t : LoopServer σ} {m : Received} {env : Env}
    (hstep : loopStep dispatch s (.datagram m env) = some t) :
    ∃ handled, dispatch s.stopServices s.state env m = some handled ∧
      (t = { s with
          pc := .mainTest, state := handled.state, sent := s.sent ++ handled.sent } ∨
        t = { s with
          pc := .returned 0, state := handled.state, sent := s.sent ++ handled.sent }) := by
  simp only [loopStep] at hstep
  split at hstep
  · split at hstep
    · rename_i handled hhandled
      refine ⟨handled, hhandled, ?_⟩
      cases hstep
      by_cases hflow : handled.flow = .next
      · left
        rw [if_pos hflow]
      · right
        rw [if_neg hflow]
    · cases hstep
  · cases hstep

/-- A step other than `stop` keeps a worker alive. -/
theorem alive_step {s t : LoopServer σ} {event : LoopEvent Env} (hs : Alive s)
    (hevent : event ≠ .stop) (hstep : loopStep dispatch s event = some t) : Alive t := by
  cases event with
  | work =>
    cases hstep
    exact alive_work hs
  | nothing =>
    simp only [loopStep] at hstep
    split at hstep
    · cases hstep
      exact ⟨hs.thr_running, hs.pd_running, Or.inr (Or.inl rfl)⟩
    · cases hstep
  | datagram m env =>
    obtain ⟨handled, -, rfl | rfl⟩ := datagram_cases hstep
    · exact ⟨hs.thr_running, hs.pd_running, Or.inr (Or.inl rfl)⟩
    · exact ⟨hs.thr_running, hs.pd_running, Or.inr (Or.inr (Or.inr rfl))⟩
  | pause p =>
    cases hstep
    exact ⟨hs.thr_running, hs.pd_running, hs.pc_inside⟩
  | start =>
    simp only [loopStep, if_neg hs.pc_ne_ended] at hstep
    cases hstep
    exact ⟨hs.thr_running, rfl, hs.pc_inside⟩
  | stop => exact absurd rfl hevent

/-- In every run without `stop`, the worker stays alive. -/
theorem alive_run {state : σ} {t : LoopServer σ} {events : List (LoopEvent Env)}
    (hevents : ∀ event ∈ events, event ≠ .stop)
    (hrun : run (loopStep dispatch) (startServer state) events = some t) : Alive t := by
  have hgood : Meets (loopStep dispatch) (fun _ event ↦ event ≠ .stop) (startServer state) events :=
    meets_of_forall (fun event hmem _ ↦ hevents event hmem) (startServer state)
  exact run_invariant_of_meets (fun s event s' hs hgood hstep ↦ alive_step hs hgood hstep)
    (alive_startServer state) hgood hrun

/-- An alive worker is back in `recv` after at most three steps. -/
theorem alive_receives (dispatch : Bool → σ → Env → Received → Option (Handled σ))
    {s : LoopServer σ} (hs : Alive s) :
    ∃ k ≤ 3, run (loopStep dispatch) s (List.replicate k .work) =
      some { s with pc := .receiving } := by
  obtain ⟨pc, thrTerminate, pdTerminate, stopServices, state, sent⟩ := s
  obtain ⟨hthr, hpd, hpc⟩ := hs
  cases hthr
  cases hpd
  obtain hpc | hpc | hpc | hpc := hpc
  · cases hpc
    exact ⟨2, by decide, rfl⟩
  · cases hpc
    exact ⟨1, by decide, rfl⟩
  · cases hpc
    exact ⟨0, by decide, rfl⟩
  · cases hpc
    exact ⟨3, le_rfl, rfl⟩

/-- Within three steps of the worker, the server receives `m` and answers it with `reply`. -/
def Answers (dispatch : Bool → σ → Env → Received → Option (Handled σ)) (s : LoopServer σ)
    (env : Env) (m : Received) (reply : List Sent) : Prop :=
  ∃ k ≤ 3, ∃ t, run (loopStep dispatch) s (List.replicate k .work ++ [.datagram m env]) = some t ∧
    t.sent = s.sent ++ reply

/-- An alive worker answers a datagram with what the dispatch sends. -/
theorem alive_answers {s : LoopServer σ} {env : Env} {m : Received} {handled : Handled σ}
    (hs : Alive s) (hhandled : dispatch s.stopServices s.state env m = some handled) :
    Answers dispatch s env m handled.sent := by
  obtain ⟨k, hk, hrun⟩ := alive_receives dispatch hs
  have hstep : loopStep dispatch { s with pc := .receiving } (.datagram m env) =
      some { s with
        pc := if handled.flow = .next then .mainTest else .returned 0
        state := handled.state
        sent := s.sent ++ handled.sent } := by
    simp only [loopStep, if_true, hhandled]
  exact ⟨k, hk, _, run_append_eq_some.mpr ⟨_, hrun, run_cons_eq_some.mpr ⟨_, hstep, run_nil _⟩⟩,
    rfl⟩

end Worker

/-! ### The two servers -/

/-- A `FINDSERVER` of version 2, with the right checksum and protocol version. -/
structure IsFindserverV2 (m : Received) : Prop where
  cksum_ok : m.cksumOk = true
  cmd_eq : getChar m.buffer 8 = 1
  version_eq : getInt m.buffer 14 = stiov2ProtocolVersion

/-- A `FINDSERVER` of version 3, with the right checksum. -/
structure IsFindserverV3 (m : Received) : Prop where
  cksum_ok : m.cksumOk = true
  cmd_eq : getInt m.buffer 4 = 0

/-- A datagram that version 3 handles within its arrays: one that is dropped (its checksum is wrong,
services are stopped, its command is none of `OPENFILE` and `FETCH`), or a request that is within
the arrays. -/
def HandledWithin (stopServices : Bool) (s : V3Server) (env : V3Env) (m : Received) : Prop :=
  m.cksumOk = false ∨ stopServices = true ∨ (getInt m.buffer 4 ≠ 2 ∧ getInt m.buffer 4 ≠ 3) ∨
    ∀ i, checkRegist s env m = .inl i → WithinArrays s env m i

/-- Version 2 handles every datagram. -/
theorem streamioV2Dispatch_isSome (stopServices : Bool) (env : V2Env) (m : Received) :
    ∃ handled, streamioV2Dispatch stopServices () env m = some handled := by
  unfold streamioV2Dispatch
  split_ifs <;> exact ⟨_, rfl⟩

/-- Version 2 sends a `FINDSERVER` back. -/
theorem streamioV2Dispatch_findserver {m : Received} (hm : IsFindserverV2 m) (env : V2Env) :
    streamioV2Dispatch false () env m = some ⟨.next, (), [⟨m.source, m.bytes⟩]⟩ := by
  unfold streamioV2Dispatch
  rw [hm.cksum_ok, if_neg (by decide), if_neg (by decide), if_pos hm.cmd_eq, if_pos hm.version_eq]

/-- Version 3 handles every datagram that does not lead out of its arrays. -/
theorem streamioV3Dispatch_isSome {stopServices : Bool} {s : V3Server} {env : V3Env} {m : Received}
    (hm : HandledWithin stopServices s env m) :
    ∃ handled, streamioV3Dispatch stopServices s env m = some handled := by
  unfold streamioV3Dispatch
  split_ifs with hcksum hstop hfind hregist hopen hfetch hclose
  · exact ⟨_, rfl⟩
  · exact ⟨_, rfl⟩
  · exact ⟨_, rfl⟩
  · exact ⟨_, rfl⟩
  · cases hcheck : checkRegist s env m with
    | inl i =>
      obtain hbad | hbad | hbad | hwithin := hm
      · simp [hbad] at hcksum
      · exact absurd hbad hstop
      · exact absurd hopen hbad.1
      · exact ⟨_, if_pos (hwithin i hcheck)⟩
    | inr reply => exact ⟨_, rfl⟩
  · cases hcheck : checkRegist s env m with
    | inl i =>
      obtain hbad | hbad | hbad | hwithin := hm
      · simp [hbad] at hcksum
      · exact absurd hbad hstop
      · exact absurd hfetch hbad.2
      · exact ⟨_, if_pos (hwithin i hcheck)⟩
    | inr reply => exact ⟨_, rfl⟩
  · cases checkRegist s env m with
    | inl i => exact ⟨_, rfl⟩
    | inr reply => exact ⟨_, rfl⟩
  · exact ⟨_, rfl⟩

/-- Version 3 sends a `FINDSERVER` back. -/
theorem streamioV3Dispatch_findserver {m : Received} (hm : IsFindserverV3 m) (s : V3Server)
    (env : V3Env) :
    streamioV3Dispatch false s env m = some ⟨.next, s, [⟨m.source, m.bytes⟩]⟩ := by
  unfold streamioV3Dispatch
  rw [hm.cksum_ok, if_neg (by decide), if_neg (by decide), if_pos hm.cmd_eq]

/-- Both main loops survive every sequence of datagrams, in any order with `pause`, as long as
nobody calls `stop`. After every run the worker has not ended and receives the next datagram within
three steps; with services running it answers every valid `FINDSERVER` with the same datagram, as a
server does that has received nothing. -/
theorem mainLoops_survive_datagrams :
    (∀ (events : List (LoopEvent V2Env)) (t : LoopServer Unit),
      (∀ event ∈ events, event ≠ .stop) →
      run (loopStep streamioV2Dispatch) (startServer ()) events = some t →
        t.pc ≠ .ended ∧
        (∀ m env, ∃ reply, Answers streamioV2Dispatch t env m reply) ∧
        (t.stopServices = false → ∀ m env, IsFindserverV2 m →
          Answers streamioV2Dispatch t env m [⟨m.source, m.bytes⟩] ∧
          Answers streamioV2Dispatch (startServer ()) env m [⟨m.source, m.bytes⟩])) ∧
    (∀ (state : V3Server) (events : List (LoopEvent V3Env)) (t : LoopServer V3Server),
      (∀ event ∈ events, event ≠ .stop) →
      run (loopStep streamioV3Dispatch) (startServer state) events = some t →
        t.pc ≠ .ended ∧
        (∀ m env, HandledWithin t.stopServices t.state env m →
          ∃ reply, Answers streamioV3Dispatch t env m reply) ∧
        (t.stopServices = false → ∀ m env, IsFindserverV3 m →
          Answers streamioV3Dispatch t env m [⟨m.source, m.bytes⟩] ∧
          Answers streamioV3Dispatch (startServer state) env m [⟨m.source, m.bytes⟩])) := by
  constructor
  · intro events t hevents hrun
    have halive := alive_run hevents hrun
    refine ⟨halive.pc_ne_ended, fun m env ↦ ?_, fun hstop m env hm ↦ ⟨?_, ?_⟩⟩
    · obtain ⟨handled, hhandled⟩ := streamioV2Dispatch_isSome t.stopServices env m
      exact ⟨handled.sent, alive_answers halive hhandled⟩
    · have hhandled := streamioV2Dispatch_findserver hm env
      rw [← hstop] at hhandled
      exact alive_answers halive hhandled
    · exact alive_answers (alive_startServer ()) (streamioV2Dispatch_findserver hm env)
  · intro state events t hevents hrun
    have halive := alive_run hevents hrun
    refine ⟨halive.pc_ne_ended, fun m env hm ↦ ?_, fun hstop m env hm ↦ ⟨?_, ?_⟩⟩
    · obtain ⟨handled, hhandled⟩ := streamioV3Dispatch_isSome hm
      exact ⟨handled.sent, alive_answers halive hhandled⟩
    · have hhandled := streamioV3Dispatch_findserver hm t.state env
      rw [← hstop] at hhandled
      exact alive_answers halive hhandled
    · exact alive_answers (alive_startServer state) (streamioV3Dispatch_findserver hm state env)

/-- A datagram of 30 bytes with checksum `cksum` and command `1` at offset 8. -/
def shortDatagram (cksum : UInt8) : Received where
  source := ⟨1, 2000⟩
  len := 30
  len_pos := by decide
  len_le := by decide
  buffer := fun j ↦ if j = 0 then cksum else if j = 8 then 1 else if j = 14 then 2 else 0

theorem mainLoops_survive_datagrams_badChecksum :
    (run (loopStep streamioV2Dispatch) (startServer ())
        [.work, .work, .datagram (shortDatagram 9) ⟨-1, -1⟩, .pause 1, .work, .pause 0] =
          some ⟨.svcTest, false, false, false, (), []⟩ ∧
      Answers streamioV2Dispatch ⟨.svcTest, false, false, false, (), []⟩ ⟨-1, -1⟩ (shortDatagram 3)
        [⟨⟨1, 2000⟩, (shortDatagram 3).bytes⟩]) ∧
    ∀ state : V3Server, ∀ env : V3Env,
      run (loopStep streamioV3Dispatch) (startServer state)
        [.work, .work, .datagram (shortDatagram 9) env] =
          some ⟨.mainTest, false, false, false, state, []⟩ ∧
      Answers streamioV3Dispatch ⟨.mainTest, false, false, false, state, []⟩ env (shortDatagram 3)
        [⟨⟨1, 2000⟩, (shortDatagram 3).bytes⟩] := by
  refine ⟨⟨rfl, ?_⟩, fun state env ↦ ⟨rfl, ?_⟩⟩
  · have hsurvive := mainLoops_survive_datagrams.1
      [.work, .work, .datagram (shortDatagram 9) ⟨-1, -1⟩, .pause 1, .work, .pause 0]
      ⟨.svcTest, false, false, false, (), []⟩ (by simp) rfl
    exact (hsurvive.2.2 rfl (shortDatagram 3) ⟨-1, -1⟩ ⟨by decide +kernel, by decide, by decide⟩).1
  · have hsurvive := mainLoops_survive_datagrams.2 state
      [.work, .work, .datagram (shortDatagram 9) env]
      ⟨.mainTest, false, false, false, state, []⟩ (by simp) rfl
    exact (hsurvive.2.2 rfl (shortDatagram 3) env ⟨by decide +kernel, by decide⟩).1

end Katmai.FileServer
