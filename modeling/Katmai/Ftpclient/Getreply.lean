import Mathlib.Data.Int.Notation
import Mathlib.Data.List.Basic
import Mathlib.Data.Nat.Notation
import Mathlib.Tactic.Common

/-!
# Reading a reply

`getreply` reads the control connection one character at a time. `getreplyLoop` takes the rounds of
its two nested loops one after the other, with fuel, since at the end of the stream `getc` returns
`EOF` again and again. `Returns` says that some fuel is enough, and the lemmas beside it say what
each kind of character does. Each answer to a telnet command is listed with the part of the stream
that was not read when it was sent.
-/

set_option autoImplicit false
set_option relaxedAutoImplicit false

namespace Katmai.Ftpclient

/-- The fields that `getreply` writes; `pasv` is the whole array. -/
structure FtpClient where
  code : ℤ
  pasv : List UInt8
  replyString : List UInt8
  deriving DecidableEq

/-- The variables of `getreply`, with the part of `reply_string` that is written. -/
structure Vars where
  n : ℤ
  dig : ℕ
  code : ℤ
  reply : List UInt8
  pflag : ℕ
  px : ℕ
  pasv : List UInt8
  continuation : ℕ
  originalcode : ℤ
  deriving DecidableEq

/-- What is sent to the server, and what is left of the stream at that time. -/
structure Sent where
  bytes : List UInt8
  left : List UInt8
  deriving DecidableEq

/-- What `getreply` returns, and what it leaves behind. -/
structure Result where
  value : ℤ
  self : FtpClient
  input : List UInt8
  sent : List Sent
  deriving DecidableEq

/-- `getc`, with `-1` for `EOF`. -/
def getc : List UInt8 → ℤ × List UInt8
  | [] => (-1, [])
  | b :: input => (b.toNat, input)

/-- A character as it is stored or printed. -/
def charOf (c : ℤ) : UInt8 :=
  UInt8.ofNat (c % 256).toNat

/-- `isdigit` -/
def isdigit (c : ℤ) : Bool :=
  48 ≤ c && c ≤ 57

/-- The `switch` behind `IAC`: what is left of the stream, and the answers. There is no `break`
between the first two cases. -/
def negotiate (input : List UInt8) : List UInt8 × List Sent :=
  let c := (getc input).1
  let input := (getc input).2
  -- WILL and WONT
  if c = 251 ∨ c = 252 then
    let x := (getc input).1
    let input := (getc input).2
    let first : Sent := { bytes := [255, 254, charOf x], left := input }
    let x := (getc input).1
    let input := (getc input).2
    (input, [first, { bytes := [255, 252, charOf x], left := input }])
  -- DO and DONT
  else if c = 253 ∨ c = 254 then
    let x := (getc input).1
    let input := (getc input).2
    (input, [{ bytes := [255, 252, charOf x], left := input }])
  else (input, [])

/-- `code`, `pflag` and `pasv` for a character that is counted. -/
def readDigits (s : Vars) (c : ℤ) : Vars :=
  let s := if s.dig < 4 ∧ isdigit c then { s with code := s.code * 10 + (c - 48) } else s
  let s := if s.pflag = 0 ∧ s.code = 227 then { s with pflag := 1 } else s
  let s := if s.dig > 4 ∧ s.pflag = 1 ∧ isdigit c then { s with pflag := 2 } else s
  if s.pflag = 2 then
    if c ≠ 13 ∧ c ≠ 41 then
      if s.px < 63 then { s with pasv := s.pasv.set s.px (charOf c), px := s.px + 1 } else s
    else { s with pasv := s.pasv.set s.px 0, pflag := 3 }
  else s

/-- A minus as fourth character. -/
def countLine (s : Vars) (c : ℤ) : Vars :=
  if s.dig = 4 ∧ c = 45 then
    { s with
      code := if s.continuation ≠ 0 then 0 else s.code
      continuation := s.continuation + 1 }
  else s

/-- `n` and `reply_string` for a character. -/
def keepChar (s : Vars) (c : ℤ) : Vars :=
  let s := if s.n = 0 then { s with n := c } else s
  if s.reply.length < 8191 then { s with reply := s.reply ++ [charOf c] } else s

/-- The body of the inner loop for a character that is no `IAC`. -/
def readChar (s : Vars) (c : ℤ) : Vars :=
  keepChar (countLine (readDigits { s with dig := s.dig + 1 } c) c) c

/-- The test behind the inner loop. -/
def continues (s : Vars) : Bool :=
  s.continuation ≠ 0 && s.code ≠ s.originalcode

/-- The variables at the start of the next line. -/
def nextLine (s : Vars) : Vars :=
  { s with
    originalcode := if s.originalcode = 0 then s.code else s.originalcode
    dig := 0
    n := 0
    code := 0
    reply := [] }

/-- The rest of the function. -/
def finish (s : Vars) (input : List UInt8) (sent : List Sent) : Result where
  value := s.n - 48
  self := { code := s.code, pasv := s.pasv, replyString := s.reply }
  input := input
  sent := sent

/-- Both loops: a round is one character of the inner loop, or the end of a line. -/
def getreplyLoop : ℕ → Vars → List UInt8 → List Sent → Option Result
  | 0, _, _, _ => none
  | fuel + 1, s, input, sent =>
    let c := (getc input).1
    let input := (getc input).2
    if c = 10 then
      if continues s then getreplyLoop fuel (nextLine s) input sent
      else some (finish s input sent)
    else if c = 255 then
      getreplyLoop fuel s (negotiate input).1 (sent ++ (negotiate input).2)
    else getreplyLoop fuel (readChar s c) input sent

/-- The variables before the first character. -/
def startVars (self : FtpClient) : Vars where
  n := 0
  dig := 0
  code := 0
  reply := []
  pflag := 0
  px := 0
  pasv := self.pasv
  continuation := 0
  originalcode := 0

/-- `getreply` -/
def getreply (fuel : ℕ) (self : FtpClient) (input : List UInt8) : Option Result :=
  getreplyLoop fuel (startVars self) input []

/-- The loops end, with some result. -/
def Returns (s : Vars) (input : List UInt8) (sent : List Sent) (r : Result) : Prop :=
  ∃ fuel, getreplyLoop fuel s input sent = some r

/-- `getreply` ends, with some result. -/
def Replies (self : FtpClient) (input : List UInt8) (r : Result) : Prop :=
  ∃ fuel, getreply fuel self input = some r

variable {s : Vars} {b : UInt8} {input : List UInt8} {sent : List Sent} {r : Result}

/-! ### The kinds of characters -/

theorem getreplyLoop_succ (fuel : ℕ) (s : Vars) (input : List UInt8) (sent : List Sent) :
    getreplyLoop (fuel + 1) s input sent =
      if (getc input).1 = 10 then
        if continues s then getreplyLoop fuel (nextLine s) (getc input).2 sent
        else some (finish s (getc input).2 sent)
      else if (getc input).1 = 255 then
        getreplyLoop fuel s (negotiate (getc input).2).1 (sent ++ (negotiate (getc input).2).2)
      else getreplyLoop fuel (readChar s (getc input).1) (getc input).2 sent :=
  rfl

/-- A round that goes on. -/
theorem returns_of_round {s' : Vars} {input' : List UInt8} {sent' : List Sent}
    (hround : ∀ fuel, getreplyLoop (fuel + 1) s input sent = getreplyLoop fuel s' input' sent') :
    Returns s input sent r ↔ Returns s' input' sent' r := by
  constructor
  · rintro ⟨fuel, hfuel⟩
    cases fuel with
    | zero => cases hfuel
    | succ fuel => exact ⟨fuel, (hround fuel).symm.trans hfuel⟩
  · rintro ⟨fuel, hfuel⟩
    exact ⟨fuel + 1, (hround fuel).trans hfuel⟩

theorem returns_char (hline : b ≠ 10) (hiac : b ≠ 255) :
    Returns s (b :: input) sent r ↔ Returns (readChar s b.toNat) input sent r := by
  have hc : ((b.toNat : ℕ) : ℤ) ≠ 10 := fun h ↦ hline (UInt8.toNat_inj.mp (Int.ofNat.inj h))
  have hc' : ((b.toNat : ℕ) : ℤ) ≠ 255 := fun h ↦ hiac (UInt8.toNat_inj.mp (Int.ofNat.inj h))
  refine returns_of_round fun fuel ↦ ?_
  rw [getreplyLoop_succ, getc, if_neg hc, if_neg hc']

theorem returns_iac :
    Returns s (255 :: input) sent r ↔
      Returns s (negotiate input).1 (sent ++ (negotiate input).2) r := by
  have hc : (getc (255 :: input)).1 = 255 := rfl
  refine returns_of_round fun fuel ↦ ?_
  rw [getreplyLoop_succ, hc, if_neg (by decide), if_pos rfl]
  rfl

theorem returns_continue (hcont : continues s = true) :
    Returns s (10 :: input) sent r ↔ Returns (nextLine s) input sent r := by
  have hc : (getc (10 :: input)).1 = 10 := rfl
  refine returns_of_round fun fuel ↦ ?_
  rw [getreplyLoop_succ, hc, if_pos rfl, if_pos hcont]
  rfl

theorem returns_finish (hdone : continues s = false) :
    Returns s (10 :: input) sent r ↔ r = finish s input sent := by
  have hround (fuel : ℕ) :
      getreplyLoop (fuel + 1) s (10 :: input) sent = some (finish s input sent) := by
    have hc : (getc (10 :: input)).1 = 10 := rfl
    rw [getreplyLoop_succ, hc, if_pos rfl, hdone, if_neg Bool.false_ne_true]
    rfl
  constructor
  · rintro ⟨fuel, hfuel⟩
    cases fuel with
    | zero => cases hfuel
    | succ fuel => exact Option.some.inj (hfuel.symm.trans (hround fuel))
  · rintro rfl
    exact ⟨1, hround 0⟩

/-- At the end of the stream the inner loop goes on for ever. -/
theorem not_returns_eof (s : Vars) (sent : List Sent) (r : Result) : ¬Returns s [] sent r := by
  rintro ⟨fuel, hfuel⟩
  induction fuel generalizing s with
  | zero => cases hfuel
  | succ fuel ih => exact ih _ hfuel

/-- What was sent stays sent. -/
theorem Returns.sent_prefix (hreturns : Returns s input sent r) : sent <+: r.sent := by
  obtain ⟨fuel, hfuel⟩ := hreturns
  induction fuel generalizing s input sent with
  | zero => cases hfuel
  | succ fuel ih =>
    rw [getreplyLoop_succ] at hfuel
    split_ifs at hfuel with hline hcont hiac
    · exact ih hfuel
    · cases hfuel
      exact List.prefix_rfl
    · exact (List.prefix_append _ _).trans (ih hfuel)
    · exact ih hfuel

end Katmai.Ftpclient
