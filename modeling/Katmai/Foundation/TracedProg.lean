import Katmai.Foundation.ByteDialogue
import Mathlib.Tactic.Common

/-!
# Programs that touch memory

A program over a connection, together with the accesses to memory that it makes on its way.
`erase` forgets them and gives a program of a dialogue, in which writing does not fail. `log` are
the accesses of one run, given what the reads return and how much the writes take, and `All` says
that every access that the program can make is fine (`TracedProg.All.of_mem_log`).
-/

set_option autoImplicit false
set_option relaxedAutoImplicit false

namespace Katmai.Foundation

variable {α β ρ : Type}

/-- The program of one party, with accesses `α`. Writing to the connection or to a file may fail. -/
inductive TracedProg (α β ρ : Type)
  | ret (result : ρ)
  | touch (access : α) (next : TracedProg α β ρ)
  | send (bytes : List β) (next : TracedProg α β ρ)
  | sendSome (bytes : List β) (failed : TracedProg α β ρ)
    (next : Fin bytes.length → TracedProg α β ρ)
  | recv (whole : Bool) (n : ℕ) (next : List β → TracedProg α β ρ)
  | choose (n : ℕ) (failed : TracedProg α β ρ) (next : Fin n → TracedProg α β ρ)

namespace TracedProg

/-- The program without its accesses, when no write fails. -/
def erase : TracedProg α β ρ → Prog β ρ
  | .ret result => .ret result
  | .touch _ next => next.erase
  | .send bytes next => .send bytes next.erase
  | .sendSome bytes _ next => .sendSome bytes fun k ↦ (next k).erase
  | .recv true n next => .recvWhole n fun bytes ↦ (next bytes).erase
  | .recv false n next => .recvSome n fun bytes ↦ (next bytes).erase
  | .choose n _ next => .choose n fun k ↦ (next k).erase

/-- The accesses of a run. `reads` are what the reads return, each cut to the length that it asks
for, and `counts` how much the writes take, where nothing is a failure. The run is over when there
is no answer. -/
def log : TracedProg α β ρ → List (List β) → List ℕ → List α
  | .ret _, _, _ => []
  | .touch access next, reads, counts => access :: next.log reads counts
  | .send _ next, reads, counts => next.log reads counts
  | .sendSome bytes failed next, reads, counts =>
    match counts with
    | [] => []
    | 0 :: counts => failed.log reads counts
    | (k + 1) :: counts => if hk : k < bytes.length then (next ⟨k, hk⟩).log reads counts else []
  | .recv _ n next, reads, counts =>
    match reads with
    | [] => []
    | bytes :: reads => (next (bytes.take n)).log reads counts
  | .choose n failed next, reads, counts =>
    match counts with
    | [] => []
    | 0 :: counts => failed.log reads counts
    | (k + 1) :: counts => if hk : k < n then (next ⟨k, hk⟩).log reads counts else []

/-- Every access that the program can make is fine, whatever it is given. -/
def All (fine : α → Prop) : TracedProg α β ρ → Prop
  | .ret _ => True
  | .touch access next => fine access ∧ next.All fine
  | .send _ next => next.All fine
  | .sendSome _ failed next => failed.All fine ∧ ∀ k, (next k).All fine
  | .recv _ n next => ∀ bytes, bytes.length ≤ n → (next bytes).All fine
  | .choose _ failed next => failed.All fine ∧ ∀ k, (next k).All fine

section Erase

variable (access : α) (bytes : List β) (n : ℕ) (next failed : TracedProg α β ρ)

@[simp] theorem erase_ret (result : ρ) : (ret result : TracedProg α β ρ).erase = .ret result :=
  rfl

@[simp] theorem erase_touch : (touch access next).erase = next.erase :=
  rfl

@[simp] theorem erase_send : (send bytes next).erase = .send bytes next.erase :=
  rfl

@[simp] theorem erase_sendSome (next : Fin bytes.length → TracedProg α β ρ) :
    (sendSome bytes failed next).erase = .sendSome bytes fun k ↦ (next k).erase :=
  rfl

@[simp] theorem erase_recv_true (next : List β → TracedProg α β ρ) :
    (recv true n next).erase = .recvWhole n fun bytes ↦ (next bytes).erase :=
  rfl

@[simp] theorem erase_recv_false (next : List β → TracedProg α β ρ) :
    (recv false n next).erase = .recvSome n fun bytes ↦ (next bytes).erase :=
  rfl

@[simp] theorem erase_choose (next : Fin n → TracedProg α β ρ) :
    (choose n failed next).erase = .choose n fun k ↦ (next k).erase :=
  rfl

@[simp] theorem erase_ite {c : Prop} [Decidable c] :
    (if c then next else failed).erase = if c then next.erase else failed.erase :=
  apply_ite erase c next failed

end Erase

section Log

variable (access : α) (bytes : List β) (whole : Bool) (n : ℕ) (next : TracedProg α β ρ)
  (answer : List β → TracedProg α β ρ) (reads : List (List β)) (counts : List ℕ)

@[simp] theorem log_ret (result : ρ) :
    (ret result : TracedProg α β ρ).log reads counts = [] :=
  rfl

@[simp] theorem log_touch :
    (touch access next).log reads counts = access :: next.log reads counts :=
  rfl

@[simp] theorem log_recv_nil : (recv whole n answer).log [] counts = [] :=
  rfl

@[simp] theorem log_recv_cons :
    (recv whole n answer).log (bytes :: reads) counts =
      (answer (bytes.take n)).log reads counts :=
  rfl

end Log

section All

variable {fine : α → Prop}

theorem All.ret (result : ρ) : (ret result : TracedProg α β ρ).All fine :=
  trivial

theorem All.touch {access : α} {next : TracedProg α β ρ} (hfine : fine access)
    (hnext : next.All fine) : (touch access next).All fine :=
  ⟨hfine, hnext⟩

theorem All.send {bytes : List β} {next : TracedProg α β ρ} (hnext : next.All fine) :
    (send bytes next).All fine :=
  hnext

theorem All.sendSome {bytes : List β} {failed : TracedProg α β ρ}
    {next : Fin bytes.length → TracedProg α β ρ} (hfailed : failed.All fine)
    (hnext : ∀ k, (next k).All fine) : (sendSome bytes failed next).All fine :=
  ⟨hfailed, hnext⟩

theorem All.recv {whole : Bool} {n : ℕ} {next : List β → TracedProg α β ρ}
    (hnext : ∀ bytes, bytes.length ≤ n → (next bytes).All fine) : (recv whole n next).All fine :=
  hnext

theorem All.choose {n : ℕ} {failed : TracedProg α β ρ} {next : Fin n → TracedProg α β ρ}
    (hfailed : failed.All fine) (hnext : ∀ k, (next k).All fine) :
    (choose n failed next).All fine :=
  ⟨hfailed, hnext⟩

/-- The accesses of a run are among those that the program can make. -/
theorem All.of_mem_log {p : TracedProg α β ρ} (hall : p.All fine) {reads : List (List β)}
    {counts : List ℕ} {access : α} (hmem : access ∈ p.log reads counts) : fine access := by
  induction p generalizing reads counts with
  | ret result => exact absurd hmem List.not_mem_nil
  | touch first next ih =>
    rcases List.mem_cons.mp hmem with rfl | hlater
    · exact hall.1
    · exact ih hall.2 hlater
  | send bytes next ih => exact ih hall hmem
  | sendSome bytes failed next ihfailed ihnext =>
    match counts with
    | [] => exact absurd hmem List.not_mem_nil
    | 0 :: counts => exact ihfailed hall.1 hmem
    | (k + 1) :: counts =>
      simp only [log] at hmem
      split_ifs at hmem with hk
      · exact ihnext ⟨k, hk⟩ (hall.2 _) hmem
      · exact absurd hmem List.not_mem_nil
  | recv whole n next ih =>
    match reads with
    | [] => exact absurd hmem List.not_mem_nil
    | bytes :: reads => exact ih _ (hall _ (List.length_take_le n bytes)) hmem
  | choose n failed next ihfailed ihnext =>
    match counts with
    | [] => exact absurd hmem List.not_mem_nil
    | 0 :: counts => exact ihfailed hall.1 hmem
    | (k + 1) :: counts =>
      simp only [log] at hmem
      split_ifs at hmem with hk
      · exact ihnext ⟨k, hk⟩ (hall.2 _) hmem
      · exact absurd hmem List.not_mem_nil

end All

-- from here on `All` is taken apart by its rules only, which look no further than the first action
attribute [irreducible] All

end TracedProg

end Katmai.Foundation
