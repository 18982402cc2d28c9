import Mathlib.Data.List.Basic
import Mathlib.Data.Nat.Notation
import Mathlib.Tactic.Common

/-!
# MAC addresses as text

`macAddress` writes the six bytes of an address and `macstrPack` reads them. The parser tells bytes
of one and of two digits apart by what comes behind a digit, with a counter `k` that is raised so as
to enter a shared case of a switch. `readBytes` is what it computes, on the text that is left: the
bytes still to come and a digit that waits for what comes behind it (`packLoop_eq`). It inverts
every text that `Renders` an address, and reads no character behind the end of any string.
-/

set_option autoImplicit false
set_option relaxedAutoImplicit false

namespace Katmai.Mactable

/-! ### The code -/

/-- A digit of `%02x`. -/
def hexChar (n : ℕ) : Char :=
  if n < 10 then Char.ofNat ('0'.toNat + n) else Char.ofNat ('a'.toNat + (n - 10))

/-- `%02x` -/
def hexByte (b : BitVec 8) : List Char :=
  [hexChar (b.toNat / 16), hexChar (b.toNat % 16)]

/-- `mac_address` -/
def macAddress : List (BitVec 8) → List Char
  | [] => []
  | [b] => hexByte b
  | b :: mac => hexByte b ++ ':' :: macAddress mac

/-- The value of a hexadecimal digit, in the three branches of the parser. -/
def hexDigit (c : Char) : Option (BitVec 8) :=
  if '0' ≤ c ∧ c ≤ '9' then some (BitVec.ofNat 8 (c.toNat - '0'.toNat))
  else if 'a' ≤ c ∧ c ≤ 'f' then some (BitVec.ofNat 8 (c.toNat - 'a'.toNat + 10))
  else if 'A' ≤ c ∧ c ≤ 'F' then some (BitVec.ofNat 8 (c.toNat - 'A'.toNat + 10))
  else none

/-- The variables of `macstr_pack`; `i` is the length of `macv`. -/
structure PackState where
  j : ℕ
  k : ℕ
  v1 : BitVec 8
  v2 : BitVec 8
  macv : List (BitVec 8)

/-- `macv[i++] = (v2 << 4) + v1; v1 = v2 = 0; k = 0` -/
def PackState.store (s : PackState) : PackState :=
  { s with k := 0, v1 := 0, v2 := 0, macv := s.macv ++ [s.v2 <<< 4 + s.v1] }

/-- `k++` and the switch -/
def PackState.bump (s : PackState) : PackState :=
  let s := { s with k := s.k + 1 }
  match s.k with
  | 1 => { s with v2 := s.v1 }
  | 3 => { s with v1 := s.v2, v2 := 0 }.store
  | 2 => s.store
  | _ => s

/-- The body of the loop for the character `c`; `none` is the return of `NULL`. -/
def packStep (c : Char) (s : PackState) : Option PackState :=
  match hexDigit c with
  | some v => some { s with v1 := v }.bump
  | none =>
    if c = ':' ∨ c = '-' then
      if s.k = 1 then some { s with k := 2 }.bump else some s
    else if s.macv.length = 5 ∧ s.k = 1 then some { s with j := s.j - 1, k := 2 }.bump
    else none

/-- The variables in front of the loop. -/
def PackState.start : PackState where
  j := 0
  k := 0
  v1 := 0
  v2 := 0
  macv := []

inductive PackFault
  | pastEnd
  | outOfFuel
  deriving DecidableEq

/-- `str[j]`: the characters of the string, the zero behind them, and nothing else. -/
def charAt (str : List Char) (j : ℕ) : Option Char :=
  if j < str.length then str[j]? else if j = str.length then some '\x00' else none

/-- The loop. -/
def packLoop (str : List Char) : ℕ → PackState → Except PackFault (Option (List (BitVec 8)))
  | 0, s => if s.macv.length < 6 then .error .outOfFuel else .ok (some s.macv)
  | fuel + 1, s =>
    if s.macv.length < 6 then
      match charAt str s.j with
      | none => .error .pastEnd
      | some c =>
        match packStep c s with
        | none => .ok none
        | some s => packLoop str fuel { s with j := s.j + 1 }
    else .ok (some s.macv)

/-- `macstr_pack`: whether it returns an address, and the destination behind the call, which is the
argument or one of the two static buffers. -/
def macstrPack (fuel : ℕ) (str : List Char) (mac : List (BitVec 8)) :
    Except PackFault (Bool × List (BitVec 8)) := do
  match ← packLoop str fuel PackState.start with
  | some macv => .ok (true, macv)
  | none => .ok (false, mac)

/-! ### What the parser computes -/

/-- The next `n` bytes of a text, behind a digit that waits. -/
def readBytes : ℕ → Option (BitVec 8) → List Char → Option (List (BitVec 8))
  | 0, _, _ => some []
  | n + 1, waiting, [] =>
    match waiting with
    | some v => if n = 0 then some [v] else none
    | none => none
  | n + 1, waiting, c :: rest =>
    match hexDigit c, waiting with
    | some v, none => readBytes (n + 1) (some v) rest
    | some v, some u => (readBytes n none rest).map ((u <<< 4 + v) :: ·)
    | none, none => if c = ':' ∨ c = '-' then readBytes (n + 1) none rest else none
    | none, some u =>
      if c = ':' ∨ c = '-' then (readBytes n none rest).map (u :: ·)
      else if n = 0 then some [u] else none

/-- The counter and the digit that waits. -/
def Waits (s : PackState) : Option (BitVec 8) → Prop
  | none => s.k = 0
  | some u => s.k = 1 ∧ s.v2 = u

variable {c : Char} {s : PackState} {u v : BitVec 8} {n : ℕ} {str : List Char}

theorem packStep_first (hc : hexDigit c = some v) (hs : Waits s none) :
    packStep c s = some { s with k := 1, v1 := v, v2 := v } := by
  have hk : s.k = 0 := hs
  simp [packStep, hc, PackState.bump, hk]

theorem packStep_second (hc : hexDigit c = some v) (hs : Waits s (some u)) :
    packStep c s =
      some { s with k := 0, v1 := 0, v2 := 0, macv := s.macv ++ [u <<< 4 + v] } := by
  obtain ⟨hk, rfl⟩ := hs
  simp [packStep, hc, PackState.bump, hk, PackState.store]

theorem packStep_skip (hc : hexDigit c = none) (hsep : c = ':' ∨ c = '-') (hs : Waits s none) :
    packStep c s = some s := by
  have hk : s.k ≠ 1 := fun h ↦ Nat.zero_ne_one (hs.symm.trans h)
  rw [packStep, hc]
  exact (if_pos hsep).trans (if_neg hk)

theorem packStep_close (hc : hexDigit c = none) (hsep : c = ':' ∨ c = '-')
    (hs : Waits s (some u)) :
    packStep c s = some { s with k := 0, v1 := 0, v2 := 0, macv := s.macv ++ [u] } := by
  obtain ⟨hk, rfl⟩ := hs
  rw [packStep, hc]
  refine (if_pos hsep).trans ((if_pos hk).trans ?_)
  simp [PackState.bump, PackState.store]

/-- A character behind the digit of the last byte that is not part of the address. -/
theorem packStep_end (hc : hexDigit c = none) (hsep : ¬(c = ':' ∨ c = '-'))
    (hs : Waits s (some u)) (hlast : s.macv.length = 5) :
    packStep c s =
      some { s with j := s.j - 1, k := 0, v1 := 0, v2 := 0, macv := s.macv ++ [u] } := by
  obtain ⟨hk, rfl⟩ := hs
  rw [packStep, hc]
  refine (if_neg hsep).trans ((if_pos ⟨hlast, hk⟩).trans ?_)
  simp [PackState.bump, PackState.store]

theorem packStep_fail (hc : hexDigit c = none) (hsep : ¬(c = ':' ∨ c = '-'))
    (hnot : ¬(s.macv.length = 5 ∧ s.k = 1)) : packStep c s = none := by
  rw [packStep, hc]
  exact (if_neg hsep).trans (if_neg hnot)

/-- The character at an index of the string, and what is left from there. -/
theorem charAt_of_lt {j : ℕ} (hj : j < str.length) :
    charAt str j = some str[j] ∧ str.drop j = str[j] :: str.drop (j + 1) := by
  rw [charAt, if_pos hj, List.getElem?_eq_getElem hj]
  exact ⟨rfl, List.drop_eq_getElem_cons hj⟩

theorem charAt_length (str : List Char) : charAt str str.length = some '\x00' := by
  rw [charAt, if_neg (Nat.lt_irrefl _), if_pos rfl]

/-- The loop that has read six bytes. -/
theorem packLoop_done (fuel : ℕ) (hdone : s.macv.length = 6) :
    packLoop str fuel s = .ok (some s.macv) := by
  cases fuel with
  | zero => exact if_neg (by omega)
  | succ fuel => exact if_neg (by omega)

/-- A round that goes on. -/
theorem packLoop_step {fuel : ℕ} {next : PackState} (hmore : s.macv.length < 6)
    (hchar : charAt str s.j = some c) (hstep : packStep c s = some next) :
    packLoop str (fuel + 1) s = packLoop str fuel { next with j := next.j + 1 } := by
  rw [packLoop, if_pos hmore, hchar]
  simp only [hstep]

/-- A round that ends the parser. -/
theorem packLoop_fail {fuel : ℕ} (hmore : s.macv.length < 6) (hchar : charAt str s.j = some c)
    (hstep : packStep c s = none) : packLoop str (fuel + 1) s = .ok none := by
  rw [packLoop, if_pos hmore, hchar]
  simp only [hstep]

/-- What the loop computes from a state: what `readBytes` does with the text that is left, unless
it is stopped before. -/
def Computes (str : List Char) (fuel : ℕ) (s : PackState) (waiting : Option (BitVec 8)) : Prop :=
  packLoop str fuel s =
      .ok ((readBytes (6 - s.macv.length) waiting (str.drop s.j)).map (s.macv ++ ·)) ∨
    packLoop str fuel s = .error .outOfFuel ∧ fuel ≤ str.length - s.j

/-- A round that goes on with the next character. -/
theorem Computes.of_step {fuel : ℕ} {waiting waiting' : Option (BitVec 8)} {next : PackState}
    (hmore : s.macv.length < 6) (hj : s.j < str.length) (hchar : charAt str s.j = some c)
    (hstep : packStep c s = some next)
    (hnext : Computes str fuel { next with j := s.j + 1 } waiting')
    (hsame : next.j = s.j)
    (hbytes : (readBytes (6 - s.macv.length) waiting (str.drop s.j)).map (s.macv ++ ·) =
      (readBytes (6 - next.macv.length) waiting' (str.drop (s.j + 1))).map (next.macv ++ ·)) :
    Computes str (fuel + 1) s waiting := by
  have hround : packLoop str (fuel + 1) s = packLoop str fuel { next with j := s.j + 1 } := by
    rw [packLoop_step hmore hchar hstep, hsame]
  refine hnext.imp (fun heq ↦ ?_) fun ⟨heq, hfuel⟩ ↦ ⟨hround.trans heq, ?_⟩
  · rw [hround, heq, hbytes]
  · simp only at hfuel
    omega

section ReadBytes

variable {rest : List Char}

/-- A character that is a digit, and one that is none. -/
theorem readBytes_cons (n : ℕ) (c : Char) (rest : List Char) :
    (∀ v, hexDigit c = some v →
        readBytes (n + 1) none (c :: rest) = readBytes (n + 1) (some v) rest ∧
        ∀ u, readBytes (n + 1) (some u) (c :: rest) =
          (readBytes n none rest).map ((u <<< 4 + v) :: ·)) ∧
      (hexDigit c = none →
        readBytes (n + 1) none (c :: rest) =
          (if c = ':' ∨ c = '-' then readBytes (n + 1) none rest else none) ∧
        ∀ u, readBytes (n + 1) (some u) (c :: rest) =
          if c = ':' ∨ c = '-' then (readBytes n none rest).map (u :: ·)
          else if n = 0 then some [u] else none) := by
  refine ⟨fun v hc ↦ ⟨?_, fun u ↦ ?_⟩, fun hc ↦ ⟨?_, fun u ↦ ?_⟩⟩ <;> simp [readBytes, hc]

theorem readBytes_first (hc : hexDigit c = some v) :
    readBytes (n + 1) none (c :: rest) = readBytes (n + 1) (some v) rest :=
  ((readBytes_cons n c rest).1 v hc).1

theorem readBytes_second (hc : hexDigit c = some v) :
    readBytes (n + 1) (some u) (c :: rest) =
      (readBytes n none rest).map ((u <<< 4 + v) :: ·) :=
  ((readBytes_cons n c rest).1 v hc).2 u

theorem readBytes_skip (hc : hexDigit c = none) (hsep : c = ':' ∨ c = '-') :
    readBytes (n + 1) none (c :: rest) = readBytes (n + 1) none rest :=
  ((readBytes_cons n c rest).2 hc).1.trans (if_pos hsep)

theorem readBytes_close (hc : hexDigit c = none) (hsep : c = ':' ∨ c = '-') :
    readBytes (n + 1) (some u) (c :: rest) = (readBytes n none rest).map (u :: ·) :=
  (((readBytes_cons n c rest).2 hc).2 u).trans (if_pos hsep)

theorem readBytes_end (hc : hexDigit c = none) (hsep : ¬(c = ':' ∨ c = '-')) :
    readBytes (0 + 1) (some u) (c :: rest) = some [u] :=
  (((readBytes_cons 0 c rest).2 hc).2 u).trans ((if_neg hsep).trans (if_pos rfl))

theorem readBytes_fail {waiting : Option (BitVec 8)} (hc : hexDigit c = none)
    (hsep : ¬(c = ':' ∨ c = '-')) (hnot : ¬(n = 0 ∧ waiting.isSome)) :
    readBytes (n + 1) waiting (c :: rest) = none := by
  cases waiting with
  | none => exact ((readBytes_cons n c rest).2 hc).1.trans (if_neg hsep)
  | some u =>
    have hn : n ≠ 0 := fun h ↦ hnot ⟨h, rfl⟩
    exact (((readBytes_cons n c rest).2 hc).2 u).trans ((if_neg hsep).trans (if_neg hn))

/-- The end of the string is read as any other character that is not part of an address. -/
theorem readBytes_nil (waiting : Option (BitVec 8)) :
    readBytes (n + 1) waiting [] = readBytes (n + 1) waiting ['\x00'] := by
  have hc : hexDigit '\x00' = none := by decide
  obtain ⟨hnone, hsome⟩ := (readBytes_cons n '\x00' []).2 hc
  cases waiting with
  | none => exact hnone.symm
  | some u => exact (hsome u).symm

end ReadBytes

/-- What the loop computes from any state that it can be in. -/
theorem computes (fuel : ℕ) (s : PackState) (waiting : Option (BitVec 8)) (hs : Waits s waiting)
    (hlength : s.macv.length ≤ 6) (hj : s.j ≤ str.length) : Computes str fuel s waiting := by
  induction fuel generalizing s waiting with
  | zero =>
    by_cases hmore : s.macv.length < 6
    · exact .inr ⟨if_pos hmore, Nat.zero_le _⟩
    · refine .inl ?_
      rw [packLoop_done 0 (by omega), show 6 - s.macv.length = 0 by omega, readBytes,
        Option.map_some, List.append_nil]
  | succ fuel ih =>
    rcases Nat.lt_or_eq_of_le hlength with hmore | hdone
    swap
    · refine .inl ?_
      rw [packLoop_done _ hdone, hdone, readBytes, Option.map_some, List.append_nil]
    obtain ⟨n, hn⟩ := Nat.exists_eq_add_of_lt hmore
    have hleft : 6 - s.macv.length = n + 1 := by omega
    -- A byte that is read is the first of those to come.
    have hstored (b : BitVec 8) (rest : List Char) :
        ((readBytes n none rest).map (b :: ·)).map (s.macv ++ ·) =
          (readBytes (6 - (s.macv ++ [b]).length) none rest).map (s.macv ++ [b] ++ ·) := by
      rw [List.length_append, List.length_singleton, show 6 - (s.macv.length + 1) = n by omega,
        Option.map_map]
      exact congrArg (Option.map · _) (funext fun l ↦ List.append_cons s.macv b l)
    have hlonger (b : BitVec 8) : (s.macv ++ [b]).length ≤ 6 := by
      rw [List.length_append, List.length_singleton]
      omega
    -- A character that ends the address, or ends the parser.
    have hother {c : Char} {rest : List Char} (hchar : charAt str s.j = some c)
        (hc : hexDigit c = none) (hsep : ¬(c = ':' ∨ c = '-'))
        (hrest : readBytes (n + 1) waiting (str.drop s.j) = readBytes (n + 1) waiting (c :: rest)) :
        Computes str (fuel + 1) s waiting := by
      refine .inl ?_
      rw [hleft, hrest]
      by_cases hlast : n = 0 ∧ waiting.isSome
      · obtain ⟨rfl, hsome⟩ := hlast
        obtain ⟨u, rfl⟩ := Option.isSome_iff_exists.mp hsome
        rw [packLoop_step hmore hchar (packStep_end hc hsep hs (by omega)), readBytes_end hc hsep]
        exact packLoop_done _ (by simpa using (by omega : s.macv.length = 5))
      · have hnot : ¬(s.macv.length = 5 ∧ s.k = 1) := by
          rintro ⟨hfive, hk⟩
          refine hlast ⟨by omega, ?_⟩
          cases waiting with
          | none => exact absurd (hs.symm.trans hk) Nat.zero_ne_one
          | some u => rfl
        rw [packLoop_fail hmore hchar (packStep_fail hc hsep hnot), readBytes_fail hc hsep hlast]
        rfl
    rcases Nat.lt_or_eq_of_le hj with hlt | hend
    · obtain ⟨hchar, hdrop⟩ := charAt_of_lt hlt
      cases hc : hexDigit str[s.j] with
      | some v =>
        cases waiting with
        | none =>
          refine .of_step hmore hlt hchar (packStep_first hc hs)
            (ih _ (some v) ⟨rfl, rfl⟩ hlength hlt) rfl ?_
          rw [hleft, hdrop, readBytes_first hc]
        | some u =>
          refine .of_step hmore hlt hchar (packStep_second hc hs)
            (ih _ none rfl (hlonger _) hlt) rfl ?_
          rw [hleft, hdrop, readBytes_second hc, hstored]
      | none =>
        by_cases hsep : str[s.j] = ':' ∨ str[s.j] = '-'
        · cases waiting with
          | none =>
            refine .of_step hmore hlt hchar (packStep_skip hc hsep hs)
              (ih _ none hs hlength hlt) rfl ?_
            rw [hleft, hdrop, readBytes_skip hc hsep]
          | some u =>
            refine .of_step hmore hlt hchar (packStep_close hc hsep hs)
              (ih _ none rfl (hlonger _) hlt) rfl ?_
            rw [hleft, hdrop, readBytes_close hc hsep, hstored]
        · exact hother hchar hc hsep (congrArg _ hdrop)
    · refine hother (hend ▸ charAt_length str) (by decide) (by decide)
        (?_ : _ = readBytes (n + 1) waiting ['\x00'])
      rw [hend, List.drop_length]
      exact readBytes_nil waiting

variable {fuel : ℕ} {mac : List (BitVec 8)}

theorem packLoop_start (fuel : ℕ) (str : List Char) :
    packLoop str fuel PackState.start = .ok (readBytes 6 none str) ∨
      packLoop str fuel PackState.start = .error .outOfFuel ∧ fuel ≤ str.length := by
  have hmap : (readBytes 6 none str).map ([] ++ ·) = readBytes 6 none str := by
    cases readBytes 6 none str <;> rfl
  have hloop : Computes str fuel PackState.start none :=
    computes fuel _ _ rfl (Nat.zero_le _) (Nat.zero_le _)
  rwa [Computes, PackState.start, List.length_nil, List.drop_zero, hmap] at hloop

/-- `macstrPack` with enough fuel: what `readBytes` reads, or nothing and the destination kept. -/
theorem macstrPack_eq (hfuel : str.length < fuel) (mac : List (BitVec 8)) :
    macstrPack fuel str mac =
      .ok ((readBytes 6 none str).isSome, (readBytes 6 none str).getD mac) := by
  rcases packLoop_start fuel str with heq | ⟨-, hle⟩
  · rw [macstrPack, heq]
    cases readBytes 6 none str <;> rfl
  · exact absurd hle (Nat.not_le.mpr hfuel)

/-- Whatever the fuel, no character behind the end of the string is read. -/
theorem macstrPack_ne_pastEnd (fuel : ℕ) (str : List Char) (mac : List (BitVec 8)) :
    macstrPack fuel str mac ≠ .error .pastEnd := by
  rcases packLoop_start fuel str with heq | ⟨heq, -⟩
  · rw [macstrPack, heq]
    cases readBytes 6 none str <;> exact fun h ↦ Except.noConfusion rfl rfl (heq_of_eq h)
  · rw [macstrPack, heq]
    exact fun h ↦ PackFault.noConfusion (Except.error.inj h)

theorem length_readBytes {waiting : Option (BitVec 8)} {text : List Char}
    (hmac : readBytes n waiting text = some mac) : mac.length = n := by
  induction text generalizing n waiting mac with
  | nil =>
    cases n with
    | zero =>
      rw [readBytes] at hmac
      exact (Option.some.inj hmac) ▸ rfl
    | succ n =>
      cases waiting with
      | none =>
        rw [readBytes] at hmac
        cases hmac
      | some u =>
        rw [readBytes] at hmac
        split_ifs at hmac with hn
        cases hmac
        rw [hn]
        rfl
  | cons c rest ih =>
    have hmore {m : ℕ} {b : BitVec 8} (hmap : (readBytes m none rest).map (b :: ·) = some mac) :
        mac.length = m + 1 := by
      obtain ⟨l, hl, rfl⟩ := Option.map_eq_some_iff.mp hmap
      exact congrArg (· + 1) (ih hl)
    cases n with
    | zero =>
      rw [readBytes] at hmac
      exact (Option.some.inj hmac) ▸ rfl
    | succ n =>
      cases hc : hexDigit c with
      | some v =>
        cases waiting with
        | none => exact ih ((readBytes_first hc).symm.trans hmac)
        | some u => exact hmore ((readBytes_second hc).symm.trans hmac)
      | none =>
        by_cases hsep : c = ':' ∨ c = '-'
        · cases waiting with
          | none => exact ih ((readBytes_skip hc hsep).symm.trans hmac)
          | some u => exact hmore ((readBytes_close hc hsep).symm.trans hmac)
        · by_cases hlast : n = 0 ∧ waiting.isSome
          · obtain ⟨rfl, hsome⟩ := hlast
            obtain ⟨u, rfl⟩ := Option.isSome_iff_exists.mp hsome
            have hu := (readBytes_end hc hsep).symm.trans hmac
            exact (Option.some.inj hu) ▸ rfl
          · exact absurd ((readBytes_fail hc hsep hlast).symm.trans hmac) (by simp)

/-! ### Renderings -/

/-- A text of one or two hexadecimal digits for a byte. -/
def RendersByte (b : BitVec 8) (text : List Char) : Prop :=
  (∃ c, text = [c] ∧ hexDigit c = some b) ∨
    ∃ c d u v, text = [c, d] ∧ hexDigit c = some u ∧ hexDigit d = some v ∧
      b.toNat = 16 * u.toNat + v.toNat

/-- A text of the bytes, with a colon or a minus between each and the next. -/
def Renders : List (BitVec 8) → List Char → Prop
  | [], text => text = []
  | [b], text => RendersByte b text
  | b :: mac, text => ∃ digits sep rest, text = digits ++ sep :: rest ∧ RendersByte b digits ∧
    (sep = ':' ∨ sep = '-') ∧ Renders mac rest

theorem hexDigit_separator (hsep : c = ':' ∨ c = '-') : hexDigit c = none := by
  rcases hsep with rfl | rfl <;> decide

/-- The byte of two digits. -/
theorem shift_add_eq {b : BitVec 8} (hb : b.toNat = 16 * u.toNat + v.toNat) : u <<< 4 + v = b := by
  refine BitVec.eq_of_toNat_eq ?_
  rw [BitVec.toNat_add, BitVec.toNat_shiftLeft, Nat.shiftLeft_eq, hb]
  omega

theorem readBytes_of_renders {text : List Char} (hrenders : Renders mac text) (hne : mac ≠ []) :
    readBytes mac.length none text = some mac := by
  induction mac generalizing text with
  | nil => exact absurd rfl hne
  | cons b mac ih =>
    cases mac with
    | nil =>
      rcases hrenders with ⟨c, rfl, hc⟩ | ⟨c, d, u, v, rfl, hc, hd, hb⟩
      · exact (readBytes_first hc).trans rfl
      · refine (readBytes_first hc).trans ((readBytes_second hd).trans ?_)
        rw [shift_add_eq hb]
        rfl
    | cons b' mac =>
      obtain ⟨digits, sep, rest, rfl, hdigits, hsep, hrest⟩ := hrenders
      have hnext := ih hrest (List.cons_ne_nil _ _)
      have hcolon := hexDigit_separator hsep
      rcases hdigits with ⟨c, rfl, hc⟩ | ⟨c, d, u, v, rfl, hc, hd, hb⟩
      · refine (readBytes_first hc).trans ((readBytes_close hcolon hsep).trans ?_)
        exact congrArg (Option.map (b :: ·)) hnext
      · refine (readBytes_first hc).trans ((readBytes_second hd).trans ?_)
        rw [shift_add_eq hb]
        exact congrArg (Option.map (b :: ·)) ((readBytes_skip hcolon hsep).trans hnext)

theorem hexDigit_hexChar (hn : n < 16) : hexDigit (hexChar n) = some (BitVec.ofNat 8 n) := by
  have hall : ∀ n < 16, hexDigit (hexChar n) = some (BitVec.ofNat 8 n) := by decide
  exact hall n hn

theorem rendersByte_hexByte (b : BitVec 8) : RendersByte b (hexByte b) := by
  have hlt := b.isLt
  refine .inr ⟨_, _, _, _, rfl, hexDigit_hexChar (by omega), hexDigit_hexChar (by omega), ?_⟩
  rw [BitVec.toNat_ofNat, BitVec.toNat_ofNat]
  omega

theorem renders_macAddress (mac : List (BitVec 8)) : Renders mac (macAddress mac) := by
  induction mac with
  | nil => rfl
  | cons b mac ih =>
    cases mac with
    | nil => exact rendersByte_hexByte b
    | cons b' mac => exact ⟨hexByte b, ':', _, rfl, rendersByte_hexByte b, .inl rfl, ih⟩

/-- The parser of MAC addresses: it inverts every rendering of six bytes, `macAddress` among them;
on every string it ends, reads nothing behind the end, and either returns six bytes or leaves the
destination alone. -/
theorem macstrPack_inverts_and_ends :
    (∀ mac text dest fuel, mac.length = 6 → Renders mac text → text.length < fuel →
      macstrPack fuel text dest = .ok (true, mac)) ∧
    (∀ mac, Renders mac (macAddress mac)) ∧
    (∀ fuel str dest, macstrPack fuel str dest ≠ .error .pastEnd) ∧
    ∀ fuel str dest, str.length < fuel →
      (∃ mac, mac.length = 6 ∧ macstrPack fuel str dest = .ok (true, mac)) ∨
        macstrPack fuel str dest = .ok (false, dest) := by
  refine ⟨fun mac text dest fuel hlength hrenders hfuel ↦ ?_, renders_macAddress,
    macstrPack_ne_pastEnd, fun fuel str dest hfuel ↦ ?_⟩
  · have hread := readBytes_of_renders hrenders (by rintro rfl; exact absurd hlength (by decide))
    rw [macstrPack_eq hfuel, ← hlength, hread]
    rfl
  · rw [macstrPack_eq hfuel]
    cases hread : readBytes 6 none str with
    | none => exact .inr rfl
    | some mac => exact .inl ⟨mac, length_readBytes hread, rfl⟩

/-- An address with bytes of one digit and of two, the last of one. -/
theorem macstrPack_mixedDigits :
    macstrPack 15 ['0', ':', '1', '-', '2', ':', 'a', 'B', ':', '3', ':', 'F'] [] =
      .ok (true, [0x0, 0x1, 0x2, 0xab, 0x3, 0xf]) := by
  refine macstrPack_inverts_and_ends.1 [0x0, 0x1, 0x2, 0xab, 0x3, 0xf] _ [] 15 rfl ?_ (by decide)
  have hone {b : BitVec 8} {c : Char} (hc : hexDigit c = some b) : RendersByte b [c] :=
    .inl ⟨c, rfl, hc⟩
  refine ⟨['0'], ':', _, rfl, hone rfl, .inl rfl, ['1'], '-', _, rfl, hone rfl, .inr rfl,
    ['2'], ':', _, rfl, hone rfl, .inl rfl, ['a', 'B'], ':', _, rfl, ?_, .inl rfl,
    ['3'], ':', ['F'], rfl, hone rfl, .inl rfl, hone rfl⟩
  exact .inr ⟨'a', 'B', 0xa, 0xb, rfl, rfl, rfl, rfl⟩

end Katmai.Mactable
