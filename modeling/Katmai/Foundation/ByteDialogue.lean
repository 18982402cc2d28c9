import Mathlib.Data.List.Basic
import Mathlib.Data.Nat.Notation

/-!
# Dialogues of two programs over byte streams

Two programs talk over a connection, one unbounded stream of bytes in each direction. A program is
what it does next and how it goes on from there: it sends bytes, at once or as many as the
connection takes, receives some bytes or as many as it asks for, makes a local choice, or is done.
At the end of a stream, when the peer is done, a read returns what is left. A dialogue interleaves
the two programs in any order.

`Ends P` says of a dialogue that all its runs, whatever the interleaving and the amounts, come to
an end, and in a state that satisfies `P`. As what a program can do is not changed by what the peer
sends later, while it has all the bytes it can take (`Settled`), such a program may be run first,
alone (`Converges`), without changing what the dialogue ends in (`Converges.ends_left`,
`ends_left_iff`): a proof about all interleavings becomes a proof about one.
-/

set_option autoImplicit false
set_option relaxedAutoImplicit false

namespace Katmai.Foundation

variable {β ρ σ : Type}

/-! ### Programs -/

/-- The program of one party. Amounts are at least one: the index `k` stands for `k + 1`. -/
inductive Prog (β ρ : Type)
  | ret (result : ρ)
  | send (bytes : List β) (next : Prog β ρ)
  | sendSome (bytes : List β) (next : Fin bytes.length → Prog β ρ)
  | recvSome (n : ℕ) (next : List β → Prog β ρ)
  | recvWhole (n : ℕ) (next : List β → Prog β ρ)
  | choose (n : ℕ) (next : Fin n → Prog β ρ)

/-- The program is done. -/
def Prog.IsRet : Prog β ρ → Prop
  | .ret _ => True
  | _ => False

/-- One action of a program: the program after it, what is left of the bytes that have come in, and
the bytes sent. `ended` says that the peer is done. -/
inductive Move (ended : Prop) : Prog β ρ → List β → Prog β ρ → List β → List β → Prop
  | send (bytes : List β) (next : Prog β ρ) (inbox : List β) :
    Move ended (.send bytes next) inbox next inbox bytes
  | sendSome (bytes : List β) (next : Fin bytes.length → Prog β ρ) (inbox : List β)
    (k : Fin bytes.length) :
    Move ended (.sendSome bytes next) inbox (next k) inbox (bytes.take (k + 1))
  | recvSome (n : ℕ) (next : List β → Prog β ρ) (inbox : List β) (k : ℕ) (hpos : 1 ≤ k)
    (hle : k ≤ n) (hlength : k ≤ inbox.length) :
    Move ended (.recvSome n next) inbox (next (inbox.take k)) (inbox.drop k) []
  | recvSomeEnd (n : ℕ) (next : List β → Prog β ρ) (hended : ended) :
    Move ended (.recvSome n next) [] (next []) [] []
  | recvWhole (n : ℕ) (next : List β → Prog β ρ) (inbox : List β) (hlength : n ≤ inbox.length) :
    Move ended (.recvWhole n next) inbox (next (inbox.take n)) (inbox.drop n) []
  | recvWholeEnd (n : ℕ) (next : List β → Prog β ρ) (inbox : List β) (hshort : inbox.length < n)
    (hended : ended) :
    Move ended (.recvWhole n next) inbox (next inbox) [] []
  | choose (n : ℕ) (next : Fin n → Prog β ρ) (inbox : List β) (k : Fin n) :
    Move ended (.choose n next) inbox (next k) inbox []

/-- What a program can do while its peer goes on, it can do with more bytes as well. -/
theorem Move.extend {p p' : Prog β ρ} {inbox inbox' sent : List β}
    (hmove : Move False p inbox p' inbox' sent) (ended : Prop) (extra : List β) :
    Move ended p (inbox ++ extra) p' (inbox' ++ extra) sent := by
  cases hmove with
  | send => exact .send _ _ _
  | sendSome _ _ _ k => exact .sendSome _ _ _ k
  | recvSome n next inbox k hpos hle hlength =>
    rw [← List.take_append_of_le_length hlength, ← List.drop_append_of_le_length hlength]
    exact .recvSome n next _ k hpos hle (by rw [List.length_append]; omega)
  | recvSomeEnd n next hended => exact hended.elim
  | recvWhole n next inbox hlength =>
    rw [← List.take_append_of_le_length hlength, ← List.drop_append_of_le_length hlength]
    exact .recvWhole n next _ (by rw [List.length_append]; omega)
  | recvWholeEnd n next inbox hshort hended => exact hended.elim
  | choose _ _ _ k => exact .choose _ _ _ k

theorem Move.not_isRet {ended : Prop} {p p' : Prog β ρ} {inbox inbox' sent : List β}
    (hmove : Move ended p inbox p' inbox' sent) : ¬p.IsRet := by
  cases hmove <;> exact id

/-! ### Dialogues -/

/-- Two programs and the bytes under way to each of them. -/
structure Dialogue (β ρ σ : Type) where
  left : Prog β ρ
  right : Prog β σ
  toLeft : List β
  toRight : List β

/-- One action of either program. -/
inductive DialogueStep : Dialogue β ρ σ → Dialogue β ρ σ → Prop
  | left {l l' : Prog β ρ} {r : Prog β σ} {inbox inbox' sent toRight : List β}
    (hmove : Move r.IsRet l inbox l' inbox' sent) :
    DialogueStep ⟨l, r, inbox, toRight⟩ ⟨l', r, inbox', toRight ++ sent⟩
  | right {l : Prog β ρ} {r r' : Prog β σ} {inbox inbox' sent toLeft : List β}
    (hmove : Move l.IsRet r inbox r' inbox' sent) :
    DialogueStep ⟨l, r, toLeft, inbox⟩ ⟨l, r', toLeft ++ sent, inbox'⟩

/-- All runs end, and in a state that satisfies `P`. -/
inductive Ends (P : Dialogue β ρ σ → Prop) : Dialogue β ρ σ → Prop
  | final {c : Dialogue β ρ σ} (hstuck : ∀ c', ¬DialogueStep c c') (hP : P c) : Ends P c
  | step {c : Dialogue β ρ σ} (hsome : ∃ c', DialogueStep c c')
    (hall : ∀ c', DialogueStep c c' → Ends P c') : Ends P c

variable {P : Dialogue β ρ σ → Prop} {c c' : Dialogue β ρ σ}

theorem Ends.of_step (hends : Ends P c) (hstep : DialogueStep c c') : Ends P c' := by
  cases hends with
  | final hstuck hP => exact absurd hstep (hstuck c')
  | step hsome hall => exact hall c' hstep

theorem Ends.of_stuck (hends : Ends P c) (hstuck : ∀ c', ¬DialogueStep c c') : P c := by
  cases hends with
  | final hstuck hP => exact hP
  | step hsome hall => exact absurd hsome.choose_spec (hstuck _)

/-- Some run ends in a state that satisfies `P`, and every property that all actions keep still
holds there. -/
theorem Ends.exists_final (Inv : Dialogue β ρ σ → Prop) (hends : Ends P c) (hc : Inv c)
    (hinv : ∀ c c', Inv c → DialogueStep c c' → Inv c') : ∃ c', Inv c' ∧ P c' := by
  induction hends with
  | final hstuck hP => exact ⟨_, hc, hP⟩
  | step hsome hall ih =>
    obtain ⟨c', hstep⟩ := hsome
    exact ih c' hstep (hinv _ _ hc hstep)

/-- The dialogue seen from the other side. -/
def Dialogue.swap (c : Dialogue β ρ σ) : Dialogue β σ ρ := ⟨c.right, c.left, c.toRight, c.toLeft⟩

theorem DialogueStep.swap (hstep : DialogueStep c c') : DialogueStep c.swap c'.swap := by
  cases hstep with
  | left hmove => exact .right hmove
  | right hmove => exact .left hmove

theorem Ends.swap (hends : Ends P c) : Ends (fun d ↦ P d.swap) c.swap := by
  induction hends with
  | final hstuck hP => exact .final (fun c' hstep ↦ hstuck c'.swap hstep.swap) hP
  | step hsome hall ih =>
    obtain ⟨c', hstep⟩ := hsome
    exact .step ⟨c'.swap, hstep.swap⟩ fun d hd ↦ ih d.swap hd.swap

/-! ### Running one program alone -/

/-- The program has all the bytes it can take in its next action: more bytes, or the end of the
stream, do not change what it can do. -/
def Settled (p : Prog β ρ) (inbox : List β) : Prop :=
  ∀ ended extra p' inbox' sent, Move ended p (inbox ++ extra) p' inbox' sent →
    ∃ rest, inbox' = rest ++ extra ∧ Move False p inbox p' rest sent

/-- Running alone from `p` and `inbox` the program comes, whatever the amounts, to a program and an
inbox that satisfy `Q`, and has sent `sent`. -/
inductive Converges (Q : Prog β ρ → List β → Prop) : Prog β ρ → List β → List β → Prop
  | done {p : Prog β ρ} {inbox : List β} (hQ : Q p inbox) : Converges Q p inbox []
  | step {p : Prog β ρ} {inbox sent : List β} (hsettled : Settled p inbox)
    (hsome : ∃ p₁ inbox₁ sent₁, Move False p inbox p₁ inbox₁ sent₁)
    (hpre : ∀ p₁ inbox₁ sent₁, Move False p inbox p₁ inbox₁ sent₁ → sent₁ <+: sent)
    (hnext : ∀ p₁ inbox₁ sent₁, Move False p inbox p₁ inbox₁ sent₁ →
      Converges Q p₁ inbox₁ (sent.drop sent₁.length)) :
    Converges Q p inbox sent

/-- The program comes to one program and one inbox. -/
abbrev ComesTo (p' : Prog β ρ) (inbox' : List β) : Prog β ρ → List β → List β → Prop :=
  Converges fun p inbox ↦ p = p' ∧ inbox = inbox'

theorem Converges.refl {p : Prog β ρ} {inbox : List β} : ComesTo p inbox p inbox [] :=
  .done ⟨rfl, rfl⟩

/-- A settled program that can act may act first. -/
theorem Ends.left_settled {l : Prog β ρ} {r : Prog β σ} {inbox toRight : List β}
    (hsettled : Settled l inbox) (hsome : ∃ l' rest sent, Move False l inbox l' rest sent)
    (hall : ∀ l' rest sent, Move False l inbox l' rest sent →
      Ends P ⟨l', r, rest, toRight ++ sent⟩) : Ends P ⟨l, r, inbox, toRight⟩ := by
  obtain ⟨l₀, rest₀, sent₀, hmove₀⟩ := hsome
  -- The peer may have acted before: it has sent `extra`. The induction is on the runs from the
  -- state in which the program has acted at once.
  suffices hextra : ∀ (c : Dialogue β ρ σ), Ends P c → ∀ (r : Prog β σ) (toRight extra : List β),
      c = ⟨l₀, r, rest₀ ++ extra, toRight ++ sent₀⟩ →
      (∀ l' rest sent, Move False l inbox l' rest sent →
        Ends P ⟨l', r, rest ++ extra, toRight ++ sent⟩) →
      Ends P ⟨l, r, inbox ++ extra, toRight⟩ by
    have hstart := hextra _ (hall l₀ rest₀ sent₀ hmove₀) r toRight [] (by rw [List.append_nil])
    simp only [List.append_nil] at hstart
    exact hstart hall
  have hact (r : Prog β σ) (toRight extra : List β) :
      DialogueStep ⟨l, r, inbox ++ extra, toRight⟩ ⟨l₀, r, rest₀ ++ extra, toRight ++ sent₀⟩ :=
    .left (hmove₀.extend _ extra)
  have hown {r : Prog β σ} {toRight extra : List β}
      (hmoves : ∀ l' rest sent, Move False l inbox l' rest sent →
        Ends P ⟨l', r, rest ++ extra, toRight ++ sent⟩)
      {l' : Prog β ρ} {inbox' sent : List β}
      (hmove : Move r.IsRet l (inbox ++ extra) l' inbox' sent) :
      Ends P ⟨l', r, inbox', toRight ++ sent⟩ := by
    obtain ⟨rest, rfl, hmove'⟩ := hsettled _ _ _ _ _ hmove
    exact hmoves _ _ _ hmove'
  have hfalse : l.IsRet = False := eq_false hmove₀.not_isRet
  intro c hends
  induction hends with
  | final hstuck hP =>
    rintro r toRight extra rfl hmoves
    refine .step ⟨_, hact r toRight extra⟩ fun c' hstep ↦ ?_
    cases hstep with
    | left hmove => exact hown hmoves hmove
    | right hmove =>
      rw [hfalse] at hmove
      exact absurd (.right (hmove.extend _ sent₀)) (hstuck _)
  | step hsome hall ih =>
    rintro r toRight extra rfl hmoves
    refine .step ⟨_, hact r toRight extra⟩ fun c' hstep ↦ ?_
    cases hstep with
    | left hmove => exact hown hmoves hmove
    | right hmove =>
      rw [hfalse] at hmove
      have hlater (l' : Prog β ρ) (rest sent : List β) :
          DialogueStep ⟨l', r, rest ++ extra, toRight ++ sent⟩
            ⟨l', _, (rest ++ extra) ++ _, _ ++ sent⟩ := .right (hmove.extend _ sent)
      rw [List.append_assoc]
      refine ih _ (hlater l₀ rest₀ sent₀) _ _ _ (by rw [List.append_assoc]) ?_
      intro l' rest sent hmove'
      have hends := (hmoves l' rest sent hmove').of_step (hlater l' rest sent)
      rwa [List.append_assoc] at hends

/-- A program that comes to the end of a stretch when it runs alone may run first. -/
theorem Converges.ends_left {Q : Prog β ρ → List β → Prop} {l : Prog β ρ} {r : Prog β σ}
    {inbox sent toRight : List β} (hconv : Converges Q l inbox sent)
    (hall : ∀ l' inbox', Q l' inbox' → Ends P ⟨l', r, inbox', toRight ++ sent⟩) :
    Ends P ⟨l, r, inbox, toRight⟩ := by
  induction hconv generalizing toRight with
  | @done l inbox hQ =>
    have hends := hall l inbox hQ
    rwa [List.append_nil] at hends
  | @step l inbox sent hsettled hsome hpre hnext ih =>
    refine .left_settled hsettled hsome fun l₁ inbox₁ sent₁ hmove ↦ ?_
    refine ih _ _ _ hmove fun l' inbox' hQ ↦ ?_
    rw [List.append_assoc, List.prefix_iff_eq_append.mp (hpre _ _ _ hmove)]
    exact hall l' inbox' hQ

/-- Where the dialogue ends in `P`, it does so from some end of the stretch. -/
theorem Converges.exists_left {Q : Prog β ρ → List β → Prop} {l : Prog β ρ} {r : Prog β σ}
    {inbox sent toRight : List β} (hconv : Converges Q l inbox sent)
    (hends : Ends P ⟨l, r, inbox, toRight⟩) :
    ∃ l' inbox', Q l' inbox' ∧ Ends P ⟨l', r, inbox', toRight ++ sent⟩ := by
  induction hconv generalizing toRight with
  | @done l inbox hQ =>
    rw [← List.append_nil toRight] at hends
    exact ⟨l, inbox, hQ, hends⟩
  | @step l inbox sent hsettled hsome hpre hnext ih =>
    obtain ⟨l₁, inbox₁, sent₁, hmove⟩ := hsome
    have hstep := hends.of_step (.left (by simpa using hmove.extend r.IsRet []))
    obtain ⟨l', inbox', hQ, hends'⟩ := ih _ _ _ hmove hstep
    rw [List.append_assoc, List.prefix_iff_eq_append.mp (hpre _ _ _ hmove)] at hends'
    exact ⟨l', inbox', hQ, hends'⟩

/-- A program that comes to one state when it runs alone may run first. -/
theorem ends_left_iff {l l' : Prog β ρ} {r : Prog β σ} {inbox inbox' sent toRight : List β}
    (hcomes : ComesTo l' inbox' l inbox sent) :
    Ends P ⟨l, r, inbox, toRight⟩ ↔ Ends P ⟨l', r, inbox', toRight ++ sent⟩ := by
  constructor
  · intro hends
    obtain ⟨_, _, ⟨rfl, rfl⟩, hends'⟩ := hcomes.exists_left hends
    exact hends'
  · intro hends
    refine hcomes.ends_left ?_
    rintro _ _ ⟨rfl, rfl⟩
    exact hends

/-- The same for the other program. -/
theorem ends_right_iff {l : Prog β ρ} {r r' : Prog β σ} {inbox inbox' sent toLeft : List β}
    (hcomes : ComesTo r' inbox' r inbox sent) :
    Ends P ⟨l, r, toLeft, inbox⟩ ↔ Ends P ⟨l, r', toLeft ++ sent, inbox'⟩ := by
  have hswap : Ends (fun d : Dialogue β σ ρ ↦ P d.swap) ⟨r, l, inbox, toLeft⟩ ↔
      Ends (fun d ↦ P d.swap) ⟨r', l, inbox', toLeft ++ sent⟩ := ends_left_iff hcomes
  constructor
  · exact fun hends ↦ (hswap.mp hends.swap).swap
  · exact fun hends ↦ (hswap.mpr hends.swap).swap

/-! ### What a program comes to, action by action -/

section Actions

variable {Q : Prog β ρ → List β → Prop} {inbox sent : List β}

theorem Converges.send {bytes : List β} {next : Prog β ρ}
    (hnext : Converges Q next inbox sent) :
    Converges Q (.send bytes next) inbox (bytes ++ sent) := by
  refine .step ?_ ⟨_, _, _, .send bytes next inbox⟩ ?_ ?_
  · rintro ended extra p₁ inbox₁ sent₁ hmove
    cases hmove
    exact ⟨inbox, rfl, .send _ _ _⟩
  · rintro p₁ inbox₁ sent₁ hmove
    cases hmove
    exact List.prefix_append _ _
  · rintro p₁ inbox₁ sent₁ hmove
    cases hmove
    rw [List.drop_left]
    exact hnext

theorem Converges.sendSome {bytes : List β} {next : Fin bytes.length → Prog β ρ}
    (hsome : bytes ≠ [])
    (hnext : ∀ k, Converges Q (next k) inbox (bytes.drop (k + 1) ++ sent)) :
    Converges Q (.sendSome bytes next) inbox (bytes ++ sent) := by
  refine .step ?_ ⟨_, _, _, .sendSome bytes next inbox ⟨0, List.length_pos_iff.mpr hsome⟩⟩ ?_ ?_
  · rintro ended extra p₁ inbox₁ sent₁ hmove
    cases hmove with
    | sendSome _ _ _ k => exact ⟨inbox, rfl, .sendSome _ _ _ k⟩
  · rintro p₁ inbox₁ sent₁ hmove
    cases hmove
    exact (List.take_prefix _ _).trans (List.prefix_append _ _)
  · rintro p₁ inbox₁ sent₁ hmove
    cases hmove with
    | sendSome _ _ _ k =>
      rw [List.length_take, Nat.min_eq_left k.isLt, List.drop_append_of_le_length k.isLt]
      exact hnext k

theorem settled_recvSome {n : ℕ} {next : List β → Prog β ρ} (hpos : 1 ≤ n)
    (hlength : n ≤ inbox.length) : Settled (.recvSome n next) inbox := by
  rintro ended extra p₁ inbox₁ sent₁ hmove
  generalize hall : inbox ++ extra = all at hmove
  cases hmove with
  | recvSome _ _ _ k hk hle _ =>
    have hshort : k ≤ inbox.length := Nat.le_trans hle hlength
    subst hall
    rw [List.take_append_of_le_length hshort, List.drop_append_of_le_length hshort]
    exact ⟨_, rfl, .recvSome n next inbox k hk hle hshort⟩
  | recvSomeEnd =>
    rw [(List.append_eq_nil_iff.mp hall).1, List.length_nil] at hlength
    omega

theorem Converges.recvSome {n : ℕ} {next : List β → Prog β ρ} (hpos : 1 ≤ n)
    (hlength : n ≤ inbox.length)
    (hnext : ∀ k, 1 ≤ k → k ≤ n →
      Converges Q (next (inbox.take k)) (inbox.drop k) sent) :
    Converges Q (.recvSome n next) inbox sent := by
  refine .step (settled_recvSome hpos hlength)
    ⟨_, _, _, .recvSome n next inbox n hpos (Nat.le_refl n) hlength⟩ ?_ ?_
  · rintro p₁ inbox₁ sent₁ hmove
    cases hmove <;> exact List.nil_prefix
  · rintro p₁ inbox₁ sent₁ hmove
    cases hmove with
    | recvSome _ _ _ k hk hle _ => exact hnext k hk hle
    | recvSomeEnd _ _ hended => exact hended.elim

/-- The bytes asked for are the first ones there. -/
theorem Converges.recvSome_append {n : ℕ} {next : List β → Prog β ρ} {bytes : List β} (hpos : 1 ≤ n)
    (hlength : n ≤ bytes.length)
    (hnext : ∀ k, 1 ≤ k → k ≤ n →
      Converges Q (next (bytes.take k)) (bytes.drop k ++ inbox) sent) :
    Converges Q (.recvSome n next) (bytes ++ inbox) sent := by
  refine .recvSome hpos (by rw [List.length_append]; omega) fun k hk hle ↦ ?_
  have hshort : k ≤ bytes.length := Nat.le_trans hle hlength
  rw [List.take_append_of_le_length hshort, List.drop_append_of_le_length hshort]
  exact hnext k hk hle

theorem Converges.recvWhole {n : ℕ} {bytes : List β} {next : List β → Prog β ρ}
    (hlength : bytes.length = n) (hnext : Converges Q (next bytes) inbox sent) :
    Converges Q (.recvWhole n next) (bytes ++ inbox) sent := by
  have htake (extra : List β) : (bytes ++ inbox ++ extra).take n = bytes := by
    rw [List.append_assoc, ← hlength, List.take_left]
  have hdrop (extra : List β) : (bytes ++ inbox ++ extra).drop n = inbox ++ extra := by
    rw [List.append_assoc, ← hlength, List.drop_left]
  have hmove : Move False (.recvWhole n next) (bytes ++ inbox) (next bytes) inbox [] := by
    have hmove : Move False _ _ _ _ _ := .recvWhole n next (bytes ++ inbox ++ [])
      (by simp only [List.length_append]; omega)
    rwa [htake, hdrop, List.append_nil, List.append_nil] at hmove
  refine .step ?_ ⟨_, _, _, hmove⟩ ?_ ?_
  · rintro ended extra p₁ inbox₁ sent₁ hmove'
    generalize hall : bytes ++ inbox ++ extra = all at hmove'
    cases hmove' with
    | recvWhole =>
      subst hall
      rw [htake, hdrop]
      exact ⟨inbox, rfl, hmove⟩
    | recvWholeEnd _ _ _ hshort =>
      subst hall
      simp only [List.length_append] at hshort
      omega
  · rintro p₁ inbox₁ sent₁ hmove'
    cases hmove' <;> exact List.nil_prefix
  · rintro p₁ inbox₁ sent₁ hmove'
    generalize hall : bytes ++ inbox = all at hmove'
    rw [← List.append_nil (bytes ++ inbox)] at hall
    cases hmove' with
    | recvWhole =>
      subst hall
      rw [htake, hdrop, List.append_nil]
      exact hnext
    | recvWholeEnd _ _ _ _ hended => exact hended.elim

theorem Converges.choose {n : ℕ} {next : Fin n → Prog β ρ} (hpos : 0 < n)
    (hnext : ∀ k, Converges Q (next k) inbox sent) :
    Converges Q (.choose n next) inbox sent := by
  refine .step ?_ ⟨_, _, _, .choose n next inbox ⟨0, hpos⟩⟩ ?_ ?_
  · rintro ended extra p₁ inbox₁ sent₁ hmove
    cases hmove with
    | choose _ _ _ k => exact ⟨inbox, rfl, .choose _ _ _ k⟩
  · rintro p₁ inbox₁ sent₁ hmove
    cases hmove
    exact List.nil_prefix
  · rintro p₁ inbox₁ sent₁ hmove
    cases hmove with
    | choose _ _ _ k => exact hnext k

end Actions

/-! ### When the peer waits or is done -/

/-- The program waits for bytes, or is done: it has no action. -/
def Blocked (ended : Prop) (p : Prog β ρ) (inbox : List β) : Prop :=
  ∀ p' inbox' sent, ¬Move ended p inbox p' inbox' sent

theorem Blocked.ret {ended : Prop} (result : ρ) (inbox : List β) :
    Blocked ended (.ret result : Prog β ρ) inbox :=
  fun _ _ _ hmove ↦ hmove.not_isRet trivial

theorem Blocked.recvSome {ended : Prop} (hended : ¬ended) (n : ℕ) (next : List β → Prog β ρ) :
    Blocked ended (.recvSome n next) [] := by
  rintro p' inbox' sent hmove
  cases hmove with
  | recvSome _ _ _ k hpos _ hlength => exact Nat.not_succ_le_zero 0 (Nat.le_trans hpos hlength)
  | recvSomeEnd _ _ hended' => exact hended hended'

theorem Blocked.recvWhole {ended : Prop} (hended : ¬ended) {n : ℕ} (next : List β → Prog β ρ)
    {inbox : List β} (hshort : inbox.length < n) : Blocked ended (.recvWhole n next) inbox := by
  rintro p' inbox' sent hmove
  cases hmove with
  | recvWhole _ _ _ hlength => exact absurd hlength (Nat.not_le.mpr hshort)
  | recvWholeEnd _ _ _ _ hended' => exact hended hended'

/-- With the peer waiting, a dialogue goes on by the actions of the other program. -/
theorem ends_iff_of_blocked {l : Prog β ρ} {r : Prog β σ} {toLeft toRight : List β}
    (hblocked : Blocked l.IsRet r toRight)
    (hsome : ∃ l' rest sent, Move r.IsRet l toLeft l' rest sent) :
    Ends P ⟨l, r, toLeft, toRight⟩ ↔ ∀ l' rest sent, Move r.IsRet l toLeft l' rest sent →
      Ends P ⟨l', r, rest, toRight ++ sent⟩ := by
  constructor
  · exact fun hends l' rest sent hmove ↦ hends.of_step (.left hmove)
  · intro hall
    obtain ⟨l₀, rest₀, sent₀, hmove₀⟩ := hsome
    refine .step ⟨_, .left hmove₀⟩ fun c' hstep ↦ ?_
    cases hstep with
    | left hmove => exact hall _ _ _ hmove
    | right hmove => exact absurd hmove (hblocked _ _ _)

/-- A dialogue in which neither program has an action has ended. -/
theorem ends_iff_of_both_blocked {l : Prog β ρ} {r : Prog β σ} {toLeft toRight : List β}
    (hleft : Blocked r.IsRet l toLeft) (hright : Blocked l.IsRet r toRight) :
    Ends P ⟨l, r, toLeft, toRight⟩ ↔ P ⟨l, r, toLeft, toRight⟩ := by
  have hstuck (c' : Dialogue β ρ σ) : ¬DialogueStep ⟨l, r, toLeft, toRight⟩ c' := by
    rintro hstep
    cases hstep with
    | left hmove => exact hleft _ _ _ hmove
    | right hmove => exact hright _ _ _ hmove
  exact ⟨fun hends ↦ hends.of_stuck hstuck, .final hstuck⟩

/-- Both programs are done. -/
theorem ends_ret_iff {result : ρ} {result' : σ} {toLeft toRight : List β} :
    Ends P ⟨.ret result, .ret result', toLeft, toRight⟩ ↔
      P ⟨.ret result, .ret result', toLeft, toRight⟩ :=
  ends_iff_of_both_blocked (.ret _ _) (.ret _ _)

/-- With the peer done and nothing left, a read returns nothing. -/
theorem ends_recvSome_end_iff {n : ℕ} {next : List β → Prog β ρ} {result : σ} {toRight : List β} :
    Ends P ⟨.recvSome n next, .ret result, [], toRight⟩ ↔
      Ends P ⟨next [], .ret result, [], toRight⟩ := by
  rw [ends_iff_of_blocked (.ret _ _) ⟨_, _, _, .recvSomeEnd n next trivial⟩]
  constructor
  · intro hall
    have hends := hall _ _ _ (.recvSomeEnd n next trivial)
    rwa [List.append_nil] at hends
  · rintro hends l' rest sent hmove
    cases hmove with
    | recvSome _ _ _ k hpos _ hlength =>
      exact absurd (Nat.le_trans hpos hlength) (Nat.not_succ_le_zero 0)
    | recvSomeEnd =>
      rw [List.append_nil]
      exact hends

/-- With the peer done and less left than is asked for, a read returns that. -/
theorem ends_recvWhole_end_iff {n : ℕ} {next : List β → Prog β ρ} {result : σ}
    {toLeft toRight : List β} (hshort : toLeft.length < n) :
    Ends P ⟨.recvWhole n next, .ret result, toLeft, toRight⟩ ↔
      Ends P ⟨next toLeft, .ret result, [], toRight⟩ := by
  rw [ends_iff_of_blocked (.ret _ _) ⟨_, _, _, .recvWholeEnd n next toLeft hshort trivial⟩]
  constructor
  · intro hall
    have hends := hall _ _ _ (.recvWholeEnd n next toLeft hshort trivial)
    rwa [List.append_nil] at hends
  · rintro hends l' rest sent hmove
    cases hmove with
    | recvWhole _ _ _ hlength => exact absurd hlength (Nat.not_le.mpr hshort)
    | recvWholeEnd =>
      rw [List.append_nil]
      exact hends

/-! ### The results a program can have -/

/-- Whatever the program receives, its result satisfies `Q`. -/
inductive Prog.Returns (Q : ρ → Prop) : Prog β ρ → Prop
  | ret {result : ρ} (hresult : Q result) : Returns Q (.ret result)
  | send {bytes : List β} {next : Prog β ρ} (hnext : Returns Q next) :
    Returns Q (.send bytes next)
  | sendSome {bytes : List β} {next : Fin bytes.length → Prog β ρ}
    (hnext : ∀ k, Returns Q (next k)) : Returns Q (.sendSome bytes next)
  | recvSome {n : ℕ} {next : List β → Prog β ρ} (hnext : ∀ bytes, Returns Q (next bytes)) :
    Returns Q (.recvSome n next)
  | recvWhole {n : ℕ} {next : List β → Prog β ρ} (hnext : ∀ bytes, Returns Q (next bytes)) :
    Returns Q (.recvWhole n next)
  | choose {n : ℕ} {next : Fin n → Prog β ρ} (hnext : ∀ k, Returns Q (next k)) :
    Returns Q (.choose n next)

theorem Prog.Returns.of_move {Q : ρ → Prop} {ended : Prop} {p p' : Prog β ρ}
    {inbox inbox' sent : List β} (hreturns : p.Returns Q)
    (hmove : Move ended p inbox p' inbox' sent) : p'.Returns Q := by
  cases hmove with
  | send => cases hreturns with | send hnext => exact hnext
  | sendSome _ _ _ k => cases hreturns with | sendSome hnext => exact hnext k
  | recvSome => cases hreturns with | recvSome hnext => exact hnext _
  | recvSomeEnd => cases hreturns with | recvSome hnext => exact hnext _
  | recvWhole => cases hreturns with | recvWhole hnext => exact hnext _
  | recvWholeEnd => cases hreturns with | recvWhole hnext => exact hnext _
  | choose _ _ _ k => cases hreturns with | choose hnext => exact hnext k

/-- Some run ends in a state that satisfies `P`, in which the right program still has results that
satisfy `Q` only. -/
theorem Ends.exists_returns {Q : σ → Prop} (hends : Ends P c) (hreturns : c.right.Returns Q) :
    ∃ c' : Dialogue β ρ σ, c'.right.Returns Q ∧ P c' := by
  refine hends.exists_final (fun c ↦ c.right.Returns Q) hreturns ?_
  rintro c c' hinv hstep
  cases hstep with
  | left hmove => exact hinv
  | right hmove => exact hinv.of_move hmove

end Katmai.Foundation
