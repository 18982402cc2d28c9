import Katmai.Ftpclient.Transfers

/-!
# Downloads that are restarted

With a server that starts a file where a `REST` before the `RETR` says and that may stop anywhere, a
local file that is only written by `get` and `reget` of one remote file is at any time a prefix of
the remote file, whatever fails in between (`runSessions_prefix`).
-/

set_option autoImplicit false
set_option relaxedAutoImplicit false

namespace Katmai.Ftpclient

variable {s s' : Ftp} {rc : ℤ} {cmd : Cmd} {w : World} {files : Files} {rm lc : Name}

/-! ### What is asked -/

theorem reply_kept (hreply : reply s = some (rc, s')) :
    s'.cmds = s.cmds ∧ s'.restartPoint = s.restartPoint := by
  obtain ⟨r, -, heq⟩ := Option.map_eq_some_iff.mp hreply
  obtain ⟨-, rfl⟩ := Prod.mk.inj heq
  exact ⟨rfl, rfl⟩

theorem command_kept (hcommand : command s cmd = some (rc, s')) :
    s'.cmds = s.cmds ++ [cmd] ∧ s'.restartPoint = s.restartPoint :=
  reply_kept hcommand

/-- Before a data connection is there `PASV` was sent. -/
theorem initconn_kept (hinit : initconn w s = some (true, s')) :
    s'.cmds = s.cmds ++ [.pasv] ∧ s'.restartPoint = s.restartPoint := by
  unfold initconn at hinit
  split_ifs at hinit with hpassive hsocket
  · obtain ⟨⟨rc, s1⟩, hcommand, heq⟩ := Option.map_eq_some_iff.mp hinit
    obtain ⟨hcmds, hrestart⟩ := command_kept hcommand
    simp only at heq
    split_ifs at heq with hrefused
    · cases heq
    · split at heq
      · cases heq
      · obtain ⟨-, rfl⟩ := Prod.mk.inj heq
        exact ⟨hcmds, hrestart⟩
  · cases hinit
  · cases hinit

/-- The commands of a download that begins. -/
def downloadCmds (restartPoint : ℕ) (rm : Name) : List Cmd :=
  .pasv :: (if restartPoint = 0 then [] else [.rest restartPoint]) ++ [.retr rm]

theorem openTransfer_cmds (hopen : openTransfer w (.retr rm) s = some (true, s')) :
    s'.cmds = s.cmds ++ downloadCmds s.restartPoint rm := by
  obtain ⟨⟨ok, s1⟩, hinit, hopen⟩ := Option.bind_eq_some_iff.mp hopen
  cases ok with
  | false => cases hopen
  | true =>
    obtain ⟨hcmds, hrestart⟩ := initconn_kept hinit
    simp only [if_true, true_and] at hopen
    rw [downloadCmds, ← hrestart]
    split_ifs at hopen with hzero
    · obtain ⟨⟨rc, s2⟩, hrest, hopen⟩ := Option.bind_eq_some_iff.mp hopen
      simp only at hopen
      split_ifs at hopen with hrefused
      · cases hopen
      · obtain ⟨⟨rc', s3⟩, hretr, heq⟩ := Option.map_eq_some_iff.mp hopen
        obtain ⟨-, rfl⟩ := Prod.mk.inj heq
        rw [if_neg hzero, (command_kept hretr).1, (command_kept hrest).1, hcmds]
        simp
    · obtain ⟨⟨rc', s3⟩, hretr, heq⟩ := Option.map_eq_some_iff.mp hopen
      obtain ⟨-, rfl⟩ := Prod.mk.inj heq
      rw [if_pos (not_not.mp hzero), (command_kept hretr).1, hcmds]
      simp

/-! ### What is written -/

/-- What comes over the data connection. -/
def arrived (pieces : List (Bytes × ℕ)) : Bytes :=
  pieces.flatMap Prod.fst

/-- What is written is a first part of what comes. -/
theorem exists_copyPieces (pieces : List (Bytes × ℕ)) (out : Bytes) :
    ∃ got, got <+: arrived pieces ∧ copyPieces pieces out = out ++ got := by
  induction pieces generalizing out with
  | nil => exact ⟨[], List.nil_prefix, (List.append_nil out).symm⟩
  | cons item rest ih =>
    obtain ⟨piece, room⟩ := item
    rw [copyPieces, arrived, List.flatMap_cons]
    split_ifs with hend hroom
    · exact ⟨[], List.nil_prefix, (List.append_nil out).symm⟩
    · exact ⟨piece.take room, (List.take_prefix _ _).trans (List.prefix_append _ _), rfl⟩
    · obtain ⟨got, hgot, hcopy⟩ := ih (out ++ piece)
      exact ⟨piece ++ got, List.prefix_append_right_inj _ |>.mpr hgot,
        by rw [hcopy, List.append_assoc]⟩

/-- A download leaves the files as they are, or it writes a first part of what came behind what is
kept of the local file. -/
theorem getit_cases (w : World) (restartit append : Bool) (rm lc : Name) (files : Files) (s : Ftp) :
    (getit w restartit append rm lc files s).1 = files ∨
      ∃ got, got <+: arrived (w.pieces (s.cmds ++
          downloadCmds (if restartit then (files lc).elim 0 List.length else 0) rm)) ∧
        (getit w restartit append rm lc files s).1 =
          Function.update files lc (some ((if append then (files lc).getD [] else []) ++ got)) := by
  rw [getit, recvrequest]
  split
  · exact .inl rfl
  · exact .inl rfl
  · next s' hopen =>
    by_cases hstdout : lc = [45]
    · exact .inl (by rw [if_pos hstdout])
    by_cases hfault : lc.head? = some 124 ∨ ¬w.creates
    · exact .inl (by rw [if_neg hstdout, if_pos hfault])
    obtain ⟨got, hgot, hcopy⟩ := exists_copyPieces (w.pieces s'.cmds)
      (if append then (files lc).getD [] else [])
    rw [openTransfer_cmds hopen] at hgot
    refine .inr ⟨got, hgot, ?_⟩
    rw [if_neg hstdout, if_neg hfault, ← hcopy]

/-! ### Servers -/

/-- A server with these files: after `REST` the file from there on comes, and otherwise the file,
from its start in either case; it may break off. -/
structure Serves (remote : Name → Bytes) (w : World) : Prop where
  restarted : ∀ cmds n rm,
    arrived (w.pieces (cmds ++ [.rest n, .retr rm])) <+: (remote rm).drop n
  whole : ∀ cmds rm, (∀ n, cmds.getLast? ≠ some (.rest n)) →
    arrived (w.pieces (cmds ++ [.retr rm])) <+: remote rm

variable {remote : Name → Bytes}

/-- What comes for the commands of a download. -/
theorem Serves.downloadCmds (hserves : Serves remote w) (cmds : List Cmd) (n : ℕ) (rm : Name) :
    arrived (w.pieces (cmds ++ Ftpclient.downloadCmds n rm)) <+: (remote rm).drop n := by
  rw [Ftpclient.downloadCmds]
  split_ifs with hzero
  · rw [hzero, List.drop_zero, ← List.append_assoc]
    exact hserves.whole _ rm (by simp)
  · have hsplit : cmds ++ (.pasv :: [.rest n] ++ [.retr rm]) =
        (cmds ++ [.pasv]) ++ [.rest n, .retr rm] := by simp
    rw [hsplit]
    exact hserves.restarted _ n rm

/-! ### Every order of calls -/

/-- The local file that a call writes. -/
def Call.writes : Call → Option Name
  | .get _ lc => some lc
  | .reget _ lc => some lc
  | _ => none

/-- The local file is missing or a first part of the remote file. -/
def Partial (remote : Name → Bytes) (rm lc : Name) (files : Files) : Prop :=
  ∀ file, files lc = some file → file <+: remote rm

/-- A call of `get` keeps it. -/
theorem partial_get (hserves : Serves remote w) (hpart : Partial remote rm lc files) (s : Ftp) :
    Partial remote rm lc (ftpclientGet w rm lc files s).1 := by
  rcases getit_cases w false false rm lc files s with heq | ⟨got, hgot, heq⟩
  · rw [ftpclientGet, heq]
    exact hpart
  · rw [ftpclientGet, heq]
    intro file hfile
    rw [Function.update_self, Option.some.injEq] at hfile
    exact hfile ▸ hgot.trans (hserves.downloadCmds s.cmds 0 rm)

/-- A call of `reget` goes on where the local file ends. -/
theorem partial_reget (hserves : Serves remote w) (hpart : Partial remote rm lc files)
    (s : Ftp) : Partial remote rm lc (ftpclientReget w rm lc files s).1 := by
  rcases getit_cases w true true rm lc files s with heq | ⟨got, hgot, heq⟩
  · rw [ftpclientReget, heq]
    exact hpart
  · rw [ftpclientReget, heq]
    intro file hfile
    rw [Function.update_self, Option.some.injEq] at hfile
    subst hfile
    have hrest := hgot.trans (hserves.downloadCmds s.cmds _ rm)
    cases hold : files lc with
    | none =>
      rw [hold] at hrest
      exact hrest
    | some old =>
      rw [hold] at hrest
      obtain ⟨later, hlater⟩ := hpart old hold
      rw [← hlater]
      refine (List.prefix_append_right_inj _).mpr ?_
      rwa [if_pos rfl, Option.elim_some, ← hlater, List.drop_left] at hrest

/-- Calls that write another file keep the file. -/
theorem call_frame {c : Call} (hwrites : c.writes ≠ some lc) (w : World) (files : Files) (s : Ftp) :
    (call w files s c).1 lc = files lc := by
  have hgetit {restartit append : Bool} {rm lc' : Name} (hne : some lc' ≠ some lc) :
      (getit w restartit append rm lc' files s).1 lc = files lc := by
    rcases getit_cases w restartit append rm lc' files s with heq | ⟨got, -, heq⟩
    · rw [heq]
    · rw [heq, Function.update_of_ne fun h ↦ hne (congrArg some h.symm)]
  cases c with
  | get rm' lc' => exact hgetit hwrites
  | reget rm' lc' => exact hgetit hwrites
  | put rm' lc' => rfl
  | dir path =>
    rw [call, ftpclientDir, recvrequest]
    split
    · rfl
    · rfl
    · rw [if_pos rfl]

/-- A call keeps it whose result, if it is the local file, comes from the remote file. -/
theorem partial_call {c : Call} (hserves : Serves remote w)
    (hwrites : c.writes = some lc → c = .get rm lc ∨ c = .reget rm lc)
    (hpart : Partial remote rm lc files) (s : Ftp) :
    Partial remote rm lc (call w files s c).1 := by
  by_cases hlc : c.writes = some lc
  · rcases hwrites hlc with rfl | rfl
    · exact partial_get hserves hpart s
    · exact partial_reget hserves hpart s
  · intro file hfile
    rw [call_frame hlc] at hfile
    exact hpart file hfile

theorem partial_runCalls {calls : List (Call × World)}
    (hcalls : ∀ c ∈ calls, Serves remote c.2 ∧
      (c.1.writes = some lc → c.1 = .get rm lc ∨ c.1 = .reget rm lc))
    (hpart : Partial remote rm lc files) (client : Option Ftp) :
    Partial remote rm lc (runCalls calls files client) := by
  induction calls generalizing files client with
  | nil => exact hpart
  | cons first rest ih =>
    obtain ⟨hfirst, hrest⟩ := List.forall_mem_cons.mp hcalls
    cases client with
    | none => exact hpart
    | some s => exact ih hrest (partial_call hfirst.1 hfirst.2 hpart s) _

/-- A local file that only downloads of one remote file write is a first part of the remote file
after all sessions, wherever they broke off. -/
theorem runSessions_prefix (remote : Name → Bytes) (rm lc : Name) {sessions : List Session}
    (hsessions : ∀ session ∈ sessions, ∀ c ∈ session.calls, Serves remote c.2 ∧
      (c.1.writes = some lc → c.1 = .get rm lc ∨ c.1 = .reget rm lc))
    {files : Files} (hpart : Partial remote rm lc files) :
    Partial remote rm lc (runSessions sessions files) := by
  induction sessions generalizing files with
  | nil => exact hpart
  | cons session rest ih =>
    obtain ⟨hfirst, hrest⟩ := List.forall_mem_cons.mp hsessions
    exact ih hrest (partial_runCalls hfirst hpart _)

/-- The place in the file that the last commands ask for. -/
def askedFrom (cmds : List Cmd) : ℕ :=
  match cmds.reverse with
  | .retr _ :: .rest n :: _ => n
  | _ => 0

/-- A server with a file of three bytes that breaks off after one byte. -/
def oneByte : World where
  socket := true
  connect _ := true
  creates := true
  pieces cmds := [(([1, 2, 3].drop (askedFrom cmds)).take 1, 4096)]
  writes _ := 0

theorem serves_oneByte : Serves (fun _ ↦ [1, 2, 3]) oneByte where
  restarted cmds n rm := by
    have hasked : askedFrom (cmds ++ [.rest n, .retr rm]) = n := by simp [askedFrom]
    simp only [oneByte, hasked, arrived, List.flatMap_cons, List.flatMap_nil, List.append_nil]
    exact List.take_prefix _ _
  whole cmds rm hlast := by
    have hasked : askedFrom (cmds ++ [.retr rm]) = 0 := by
      rcases List.eq_nil_or_concat cmds with rfl | ⟨front, cmd, rfl⟩
      · rfl
      · rw [List.concat_eq_append] at hlast ⊢
        rw [List.getLast?_concat] at hlast
        cases cmd with
        | rest n => exact absurd rfl (hlast n)
        | pasv | retr | list | stor => simp [askedFrom]
    simp only [oneByte, hasked, arrived, List.flatMap_cons, List.flatMap_nil, List.append_nil]
    exact List.take_prefix _ _

/-- A client with these replies on its way. -/
def clientWith (replies : List Char) : Ftp where
  self := { code := 0, pasv := List.replicate 64 0, replyString := [] }
  passive := true
  restartPoint := 0
  dataAddr := (0, 0)
  input := replies.map fun c ↦ UInt8.ofNat c.toNat
  cmds := []
  answers := []

/-- A download that breaks off and one that goes on with it. -/
def twoSessions : List Session :=
  let pasv := ['2', '2', '7', ' ', '1', ',', '1', ',', '1', ',', '1', ',', '1', ',', '1', ')', '\n']
  [⟨clientWith (pasv ++ ['1', ' ', '\n']), [(.get [7] [8], oneByte)]⟩,
    ⟨clientWith (pasv ++ ['3', ' ', '\n', '1', ' ', '\n']), [(.reget [7] [8], oneByte)]⟩]

theorem runSessions_prefix_twoSessions :
    runSessions twoSessions (fun _ ↦ none) [8] = some [1, 2] ∧
      Partial (fun _ ↦ [1, 2, 3]) [7] [8] (runSessions twoSessions fun _ ↦ none) := by
  refine ⟨by decide +kernel, runSessions_prefix _ _ _ ?_ fun _ hfile ↦ nomatch hfile⟩
  intro session hsession c hc
  rw [twoSessions, List.mem_cons, List.mem_singleton] at hsession
  rcases hsession with rfl | rfl
  · rw [List.mem_singleton.mp hc]
    exact ⟨serves_oneByte, fun _ ↦ .inl rfl⟩
  · rw [List.mem_singleton.mp hc]
    exact ⟨serves_oneByte, fun _ ↦ .inr rfl⟩

end Katmai.Ftpclient
