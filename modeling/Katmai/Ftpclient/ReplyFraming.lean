import Katmai.Ftpclient.ReplyLines

/-!
# One reply

An `FtpReply` is a line with a code, or lines between two with the same code; `Carries` says that a
part of a stream is a reply with telnet negotiations in it. Where the server only asks (`DO`,
`DONT`), the loops are in step with the stream (`returns_items`); the first offer (`WILL`, `WONT`)
costs a character and is answered twice. A line of the reply that begins with its code ends it,
unless a minus follows (`FtpReply.stops`). These are the conditions of `getreply_frames_iff`.
-/

set_option autoImplicit false
set_option relaxedAutoImplicit false

namespace Katmai.Ftpclient

/-! ### Replies and negotiations -/

/-- The verb of a negotiation; `doo` is `DO`. -/
inductive Verb
  | will
  | wont
  | doo
  | dont
  deriving DecidableEq

def Verb.byte : Verb → UInt8
  | .will => 251
  | .wont => 252
  | .doo => 253
  | .dont => 254

/-- `DONT` for an offer, `WONT` for a request. -/
def Verb.refusal : Verb → UInt8
  | .will => 254
  | .wont => 254
  | .doo => 252
  | .dont => 252

/-- A character of a text, or a negotiation of an option. -/
inductive Item
  | char (b : UInt8)
  | negotiation (verb : Verb) (option : UInt8)
  deriving DecidableEq

def Item.wire : Item → List UInt8
  | .char b => [b]
  | .negotiation verb option => [255, verb.byte, option]

def Item.text : Item → Option UInt8
  | .char b => some b
  | .negotiation _ _ => none

/-- The bytes of a part of a stream. -/
def wire (items : List Item) : List UInt8 :=
  items.flatMap Item.wire

/-- The characters of a part of a stream. -/
def chars (items : List Item) : List UInt8 :=
  items.filterMap Item.text

/-- One answer to each negotiation, sent when it is read. -/
def answers : List Item → List UInt8 → List Sent
  | [], _ => []
  | .char _ :: items, rest => answers items rest
  | .negotiation verb option :: items, rest =>
    { bytes := [255, verb.refusal, option], left := wire items ++ rest } :: answers items rest

/-- A reply code: three digits, the first of them not zero. -/
structure ReplyCode where
  first : Fin 10
  second : Fin 10
  third : Fin 10
  first_ne : first ≠ 0

def digitByte (d : Fin 10) : UInt8 :=
  UInt8.ofNat (48 + d)

def ReplyCode.bytes (code : ReplyCode) : List UInt8 :=
  [digitByte code.first, digitByte code.second, digitByte code.third]

def ReplyCode.value (code : ReplyCode) : ℤ :=
  100 * (code.first : ℕ) + 10 * (code.second : ℕ) + (code.third : ℕ)

/-- The code, the text of the first line, and for a reply of more lines those behind it and the text
of the last one. -/
structure ReplyText where
  code : ReplyCode
  text : List UInt8
  more : Option (List (List UInt8) × List UInt8)

/-- The lines between the first one and the last one. -/
def ReplyText.inner (reply : ReplyText) : List (List UInt8) :=
  reply.more.elim [] Prod.fst

def ReplyText.lines (reply : ReplyText) : List (List UInt8) :=
  match reply.more with
  | none => [reply.code.bytes ++ 32 :: reply.text]
  | some (inner, last) =>
    (reply.code.bytes ++ 45 :: reply.text) :: (inner ++ [reply.code.bytes ++ 32 :: last])

/-- A reply: its lines are texts, and its last line is the first one that begins with the code and a
blank. -/
structure FtpReply extends ReplyText where
  plain : ∀ line ∈ toReplyText.lines, ∀ b ∈ line, b ≠ 10 ∧ b ≠ 255
  inner_open : ∀ line ∈ toReplyText.inner, ¬(code.bytes ++ [32]) <+: line

/-- A text of lines. -/
def lineBytes (lines : List (List UInt8)) : List UInt8 :=
  lines.flatMap (· ++ [10])

/-- A part of a stream is a reply, with negotiations before its line end. -/
structure Carries (items : List Item) (reply : FtpReply) : Prop where
  chars_eq : chars items = lineBytes reply.lines
  getLast_eq : items.getLast? = some (.char 10)

/-- A call consumes the reply and the negotiations in it, answers each of them, and gives the code
and its first digit. -/
def Consumes (self : FtpClient) (reply : FtpReply) (items : List Item) (rest : List UInt8) : Prop :=
  ∃ r, Replies self (wire items ++ rest) r ∧ r.input = rest ∧ r.sent = answers items rest ∧
    r.self.code = reply.code.value ∧ r.value = (reply.code.first : ℕ)

/-- Every negotiation is a request. -/
def NoOffer (items : List Item) : Prop :=
  ∀ verb option, Item.negotiation verb option ∈ items → verb = .doo ∨ verb = .dont

/-- A line that begins with the code goes on with a minus. -/
def Unmistakable (reply : FtpReply) : Prop :=
  ∀ line ∈ reply.inner, reply.code.bytes <+: line → (reply.code.bytes ++ [45]) <+: line

instance (reply : FtpReply) : Decidable (Unmistakable reply) :=
  inferInstanceAs (Decidable (∀ line ∈ reply.inner,
    reply.code.bytes <+: line → (reply.code.bytes ++ [45]) <+: line))

/-! ### Requests -/

variable {s s' : Vars} {p q items : List Item} {tail rest text line : List UInt8}
  {sent : List Sent} {r : Result} {code : ReplyCode}

theorem wire_cons (item : Item) (items : List Item) :
    wire (item :: items) = item.wire ++ wire items :=
  rfl

theorem wire_append (p q : List Item) : wire (p ++ q) = wire p ++ wire q :=
  List.flatMap_append

theorem chars_append (p q : List Item) : chars (p ++ q) = chars p ++ chars q :=
  List.filterMap_append

theorem answers_append (p q : List Item) (rest : List UInt8) :
    answers (p ++ q) rest = answers p (wire q ++ rest) ++ answers q rest := by
  induction p with
  | nil => rfl
  | cons item p ih =>
    cases item with
    | char b => exact ih
    | negotiation verb option =>
      rw [List.cons_append, answers, answers, ih, wire_append, List.append_assoc]
      rfl

/-- Behind an answer to a negotiation there are at least three bytes less. -/
theorem length_left_of_mem_answers {answer : Sent} (hanswer : answer ∈ answers items rest) :
    answer.left.length + 3 ≤ (wire items ++ rest).length := by
  induction items with
  | nil => exact absurd hanswer List.not_mem_nil
  | cons item items ih =>
    rw [wire_cons, List.append_assoc, List.length_append]
    cases item with
    | char b => exact Nat.le_add_left_of_le (ih hanswer)
    | negotiation verb option =>
      rcases List.mem_cons.mp hanswer with rfl | hlater
      · exact Nat.le_of_eq (Nat.add_comm _ 3)
      · exact Nat.le_add_left_of_le (ih hlater)

/-- The variables behind a text in which no line ends the reply. -/
def goesOn : Vars → List UInt8 → Option Vars
  | s, [] => some s
  | s, b :: text =>
    if b = 10 then if continues s then goesOn (nextLine s) text else none
    else goesOn (readChar s b.toNat) text

theorem goesOn_append (s : Vars) (text more : List UInt8) :
    goesOn s (text ++ more) = (goesOn s text).bind (goesOn · more) := by
  induction text generalizing s with
  | nil => rfl
  | cons b text ih =>
    rw [List.cons_append, goesOn, goesOn]
    split_ifs
    · exact ih _
    · rfl
    · exact ih _

theorem charOf_toNat (b : UInt8) : charOf b.toNat = b := by
  have hlt := b.toNat_lt
  have hmod : ((b.toNat : ℤ) % 256).toNat = b.toNat := by omega
  rw [charOf, hmod, UInt8.ofNat_toNat]

theorem negotiate_request {verb : Verb} (hverb : verb = .doo ∨ verb = .dont) (option : UInt8)
    (rest : List UInt8) :
    negotiate (verb.byte :: option :: rest) =
      (rest, [{ bytes := [255, verb.refusal, option], left := rest }]) := by
  have hrequest (v : UInt8) (hv : v = 253 ∨ v = 254) :
      negotiate (v :: option :: rest) =
        (rest, [{ bytes := [255, 252, charOf option.toNat], left := rest }]) := by
    rcases hv with rfl | rfl <;> rfl
  rw [charOf_toNat] at hrequest
  rcases hverb with rfl | rfl
  · exact hrequest 253 (.inl rfl)
  · exact hrequest 254 (.inr rfl)

/-- An offer costs a character, which is refused as if it had been asked for. -/
theorem negotiate_offer {verb : Verb} (hverb : ¬(verb = .doo ∨ verb = .dont)) (option b : UInt8)
    (rest : List UInt8) :
    negotiate (verb.byte :: option :: b :: rest) =
      (rest, [{ bytes := [255, verb.refusal, option], left := b :: rest },
        { bytes := [255, 252, b], left := rest }]) := by
  have hoffer (v : UInt8) (hv : v = 251 ∨ v = 252) :
      negotiate (v :: option :: b :: rest) =
        (rest, [{ bytes := [255, 254, charOf option.toNat], left := b :: rest },
          { bytes := [255, 252, charOf b.toNat], left := rest }]) := by
    rcases hv with rfl | rfl <;> rfl
  rw [charOf_toNat, charOf_toNat] at hoffer
  cases verb with
  | will => exact hoffer 251 (.inl rfl)
  | wont => exact hoffer 252 (.inr rfl)
  | doo => exact absurd (.inl rfl) hverb
  | dont => exact absurd (.inr rfl) hverb

theorem NoOffer.of_cons {item : Item} (hoffer : NoOffer (item :: items)) : NoOffer items :=
  fun verb option hmem ↦ hoffer verb option (List.mem_cons_of_mem _ hmem)

/-- The loops are in step with a part of the stream that holds no offer and no end of the reply. -/
theorem returns_items (hoffer : NoOffer p) (hplain : ∀ b ∈ chars p, b ≠ 255)
    (hgo : goesOn s (chars p) = some s') :
    Returns s (wire p ++ tail) sent r ↔ Returns s' tail (sent ++ answers p tail) r := by
  induction p generalizing s sent with
  | nil =>
    cases Option.some.inj hgo
    rw [answers, List.append_nil]
    rfl
  | cons item p ih =>
    cases item with
    | char b =>
      have hb : b ≠ 255 := hplain b List.mem_cons_self
      have hrest : ∀ d ∈ chars p, d ≠ 255 := fun d hd ↦ hplain d (List.mem_cons_of_mem _ hd)
      change goesOn s (b :: chars p) = some s' at hgo
      change Returns s (b :: (wire p ++ tail)) sent r ↔ _
      rw [goesOn] at hgo
      by_cases hline : b = 10
      · subst hline
        rw [if_pos rfl] at hgo
        cases hcont : continues s with
        | true =>
          rw [if_pos hcont] at hgo
          rw [returns_continue hcont]
          exact ih hoffer.of_cons hrest hgo
        | false =>
          rw [hcont, if_neg Bool.false_ne_true] at hgo
          cases hgo
      · rw [if_neg hline] at hgo
        rw [returns_char hline hb]
        exact ih hoffer.of_cons hrest hgo
    | negotiation verb option =>
      change Returns s (255 :: (verb.byte :: option :: (wire p ++ tail))) sent r ↔ _
      rw [returns_iac, negotiate_request (hoffer verb option List.mem_cons_self),
        ih hoffer.of_cons hplain hgo, answers, List.append_assoc]
      rfl

/-! ### Codes -/

theorem toNat_digitByte (d : Fin 10) : (digitByte d).toNat = 48 + d := by
  have hlt := d.isLt
  rw [digitByte, UInt8.toNat_ofNat']
  omega

theorem isdigit_digitByte (d : Fin 10) : isdigit ((digitByte d).toNat : ℤ) = true := by
  have hlt := d.isLt
  rw [toNat_digitByte]
  simp only [isdigit, Bool.and_eq_true, decide_eq_true_eq]
  omega

theorem digitByte_inj {d : Fin 10} {b : UInt8} (hb : b.toNat = 48 + (d : ℕ)) : b = digitByte d :=
  UInt8.toNat_inj.mp (hb.trans (toNat_digitByte d).symm)

theorem ReplyCode.value_ge (code : ReplyCode) : 100 ≤ code.value := by
  have hne : (code.first : ℕ) ≠ 0 := fun h ↦ code.first_ne (Fin.ext h)
  rw [ReplyCode.value]
  omega

theorem number_bytes (code : ReplyCode) (text : List UInt8) :
    number (code.bytes ++ text) = code.value := by
  have htake : (code.bytes ++ text).take 3 = code.bytes := rfl
  have hdigits : code.bytes.filter (fun b ↦ isdigit b.toNat) = code.bytes := by
    refine List.filter_eq_self.mpr fun b hb ↦ ?_
    simp only [ReplyCode.bytes, List.mem_cons, List.not_mem_nil, or_false] at hb
    rcases hb with rfl | rfl | rfl <;> exact isdigit_digitByte _
  rw [number, htake, hdigits, ReplyCode.bytes, ReplyCode.value]
  simp only [List.foldl_cons, List.foldl_nil, toNat_digitByte]
  omega

/-- A line whose number is a code begins with it. -/
theorem bytes_prefix_of_number (hnumber : number line = code.value) : code.bytes <+: line := by
  have hge := code.value_ge
  have hvalue : code.value =
    100 * (code.first : ℕ) + 10 * (code.second : ℕ) + (code.third : ℕ) := rfl
  have hsecond := code.second.isLt
  have hthird := code.third.isLt
  have hsub : ((line.take 3).filter fun b ↦ isdigit b.toNat).Sublist (line.take 3) :=
    List.filter_sublist
  have hdigit : ∀ b ∈ (line.take 3).filter (fun b ↦ isdigit b.toNat),
      48 ≤ b.toNat ∧ b.toNat ≤ 57 := by
    intro b hb
    have hb' := (List.mem_filter.mp hb).2
    simp only [isdigit, Bool.and_eq_true, decide_eq_true_eq] at hb'
    omega
  have hlength := List.length_take_le 3 line
  rw [number] at hnumber
  -- With fewer than three digits the number is too small.
  rcases hds : (line.take 3).filter (fun b ↦ isdigit b.toNat) with
    _ | ⟨x, _ | ⟨y, _ | ⟨z, _ | ⟨t, ts⟩⟩⟩⟩
  · rw [hds, List.foldl_nil] at hnumber
    omega
  · have hx := hdigit x (hds ▸ List.mem_cons_self)
    rw [hds] at hnumber
    simp only [List.foldl_cons, List.foldl_nil] at hnumber
    omega
  · have hx := hdigit x (by simp [hds])
    have hy := hdigit y (by simp [hds])
    rw [hds] at hnumber
    simp only [List.foldl_cons, List.foldl_nil] at hnumber
    omega
  · have hx := hdigit x (by simp [hds])
    have hy := hdigit y (by simp [hds])
    have hz := hdigit z (by simp [hds])
    rw [hds] at hnumber hsub
    simp only [List.foldl_cons, List.foldl_nil] at hnumber
    have htake : [x, y, z] = line.take 3 := hsub.eq_of_length_le hlength
    have hbytes : code.bytes = line.take 3 := by
      rw [← htake, ReplyCode.bytes, ← digitByte_inj (d := code.first) (b := x) (by omega),
        ← digitByte_inj (d := code.second) (b := y) (by omega),
        ← digitByte_inj (d := code.third) (b := z) (by omega)]
    exact hbytes ▸ List.take_prefix 3 line
  · rw [hds] at hsub
    have hle := hsub.length_le
    simp only [List.length_cons] at hle
    omega

theorem dashed_bytes (code : ReplyCode) (text : List UInt8) :
    Dashed (code.bytes ++ text) ↔ text.head? = some 45 := by
  have hget : (code.bytes ++ text)[3]? = text.head? := List.head?_eq_getElem?.symm
  rw [Dashed, hget]

theorem prefix_dash_iff (code : ReplyCode) (text : List UInt8) :
    (code.bytes ++ [45]) <+: code.bytes ++ text ↔ text.head? = some 45 := by
  rw [List.prefix_append_right_inj]
  cases text with
  | nil => simp
  | cons b text => simp [eq_comm]

/-- A line ends a reply if and only if it begins with the code, and no minus follows. -/
theorem closes_iff :
    Closes code.value line ↔ ¬(code.bytes <+: line → (code.bytes ++ [45]) <+: line) := by
  constructor
  · rintro ⟨hnumber, hdash⟩ himp
    obtain ⟨text, rfl⟩ := bytes_prefix_of_number hnumber
    exact hdash ((dashed_bytes code text).mpr
      ((prefix_dash_iff code text).mp (himp (List.prefix_append _ _))))
  · intro hnot
    obtain ⟨⟨text, rfl⟩, hdash⟩ := Classical.not_imp.mp hnot
    exact ⟨number_bytes code text, fun h ↦
      hdash ((prefix_dash_iff code text).mpr ((dashed_bytes code text).mp h))⟩

/-! ### The line that ends a reply -/

theorem goesOn_line (hline : 10 ∉ line) (text : List UInt8) :
    goesOn s (line ++ text) = goesOn (readText s line) text := by
  induction line generalizing s with
  | nil => rfl
  | cons b line ih =>
    have hb : b ≠ 10 := fun h ↦ hline (h ▸ List.mem_cons_self)
    rw [List.cons_append, goesOn, if_neg hb, ih fun h ↦ hline (List.mem_cons_of_mem _ h),
      readText_cons]

theorem lineBytes_cons (line : List UInt8) (lines : List (List UInt8)) :
    lineBytes (line :: lines) = line ++ 10 :: lineBytes lines := by
  rw [lineBytes, List.flatMap_cons, List.append_assoc]
  rfl

/-- The variables where the loops stop, the text before that line end, and what is behind it. -/
structure Stops (s : Vars) (text before after : List UInt8) (s' : Vars) : Prop where
  text_eq : text = before ++ 10 :: after
  goesOn_eq : goesOn s before = some s'
  done : continues s' = false

/-- The loops stop at the first line that they do not go on behind. -/
theorem stops_line (hline : 10 ∉ line) (hdone : continues (readText s line) = false)
    (lines : List (List UInt8)) :
    Stops s (lineBytes (line :: lines)) line (lineBytes lines) (readText s line) where
  text_eq := lineBytes_cons line lines
  goesOn_eq := by
    rw [← List.append_nil line, goesOn_line hline, List.append_nil]
    rfl
  done := hdone

theorem Stops.cons {before after : List UInt8} {lines : List (List UInt8)} (hline : 10 ∉ line)
    (hcont : continues (readText s line) = true)
    (hstops : Stops (nextLine (readText s line)) (lineBytes lines) before after s') :
    Stops s (lineBytes (line :: lines)) (line ++ 10 :: before) after s' where
  text_eq := by
    rw [lineBytes_cons, hstops.text_eq, List.append_assoc]
    rfl
  goesOn_eq := by
    rw [goesOn_line hline, goesOn, if_pos rfl, if_pos hcont]
    exact hstops.goesOn_eq
  done := hstops.done

/-- The last line of a reply is read from a fresh start, and gives its number. -/
structure Ends (line : List UInt8) (s' : Vars) : Prop where
  n : ∀ b ∈ line.head?, b ≠ 0 → s'.n = b.toNat
  code : s'.code = number line

theorem ends_readText (hfresh : Fresh s) (hdash : ¬Dashed line) : Ends line (readText s line) where
  n b hb hne := by
    cases line with
    | nil => cases hb
    | cons d line =>
      cases Option.some.inj hb
      exact readText_n hfresh hne line
  code := (readsLine_readText hfresh line).code.trans (if_neg fun h ↦ hdash h.1)

/-- Later lines of a reply: the loops stop at its last line, unless one before it closes it. -/
theorem Inside.stops {k : ℤ} {inner : List (List UInt8)} (hs : Inside k s)
    (hinner : ∀ line ∈ inner, 10 ∉ line) (hline : 10 ∉ line) (hcloses : Closes k line) :
    ∃ before after s', Stops s (lineBytes (inner ++ [line])) before after s' ∧
      (after = [] ↔ ∀ line ∈ inner, ¬Closes k line) ∧ (after = [] → Ends line s') := by
  have hdone {s : Vars} {line : List UInt8} (hs : Inside k s) (hcloses : Closes k line) :
      continues (readText s line) = false :=
    Bool.eq_false_iff.mpr fun h ↦ hs.continues_iff.mp h hcloses
  induction inner generalizing s with
  | nil =>
    exact ⟨line, [], _, stops_line hline (hdone hs hcloses) [],
      iff_of_true rfl fun l hl ↦ absurd hl List.not_mem_nil,
      fun _ ↦ ends_readText hs.toFresh hcloses.2⟩
  | cons first inner ih =>
    have hfirst : 10 ∉ first := hinner first List.mem_cons_self
    by_cases hclosed : Closes k first
    · have hmore : lineBytes (inner ++ [line]) ≠ [] := by simp [lineBytes]
      exact ⟨first, _, _, stops_line hfirst (hdone hs hclosed) (inner ++ [line]),
        iff_of_false hmore fun h ↦ h first List.mem_cons_self hclosed, fun h ↦ absurd h hmore⟩
    · obtain ⟨before, after, s', hstops, hiff, hends⟩ :=
        ih (hs.nextLine first) fun l hl ↦ hinner l (List.mem_cons_of_mem _ hl)
      refine ⟨_, after, s', hstops.cons hfirst (hs.continues_iff.mpr hclosed), ?_, hends⟩
      rw [hiff, List.forall_mem_cons, and_iff_right hclosed]

/-- Of a reply: the loops stop at its last line, unless a line before it is taken for that. -/
theorem FtpReply.stops (reply : FtpReply) (hs : Outside s) :
    ∃ before after s', Stops s (lineBytes reply.lines) before after s' ∧
      (after = [] ↔ Unmistakable reply) ∧
      (after = [] → ∃ text, Ends (reply.code.bytes ++ text) s') := by
  obtain ⟨⟨code, text, more⟩, hplain, hopen⟩ := reply
  have hblank (text : List UInt8) : ¬Dashed (code.bytes ++ 32 :: text) := by
    rw [dashed_bytes]
    simp
  cases more with
  | none =>
    have hline : 10 ∉ code.bytes ++ 32 :: text := fun h ↦ (hplain _ List.mem_cons_self _ h).1 rfl
    have hdone : continues (readText s (code.bytes ++ 32 :: text)) = false :=
      Bool.eq_false_iff.mpr fun h ↦ hblank text (hs.continues_iff.mp h).1
    exact ⟨_, _, _, stops_line hline hdone [],
      iff_of_true rfl fun l hl ↦ absurd hl List.not_mem_nil,
      fun _ ↦ ⟨_, ends_readText hs.toFresh (hblank text)⟩⟩
  | some more =>
    obtain ⟨inner, last⟩ := more
    have hnewline (l : List UInt8)
        (hl : l ∈ (code.bytes ++ 45 :: text) :: (inner ++ [code.bytes ++ 32 :: last])) : 10 ∉ l :=
      fun h ↦ (hplain l hl _ h).1 rfl
    have hopens : Opens (code.bytes ++ 45 :: text) := by
      refine ⟨(dashed_bytes code _).mpr rfl, ?_⟩
      rw [number_bytes]
      exact fun h ↦ absurd code.value_ge (by rw [h]; decide)
    have hinside : Inside code.value (nextLine (readText s (code.bytes ++ 45 :: text))) :=
      number_bytes code (45 :: text) ▸ hs.nextLine hopens
    have hinner (l : List UInt8) (hl : l ∈ inner) : 10 ∉ l :=
      hnewline l (List.mem_cons_of_mem _ (List.mem_append_left _ hl))
    have hlast : 10 ∉ code.bytes ++ 32 :: last := hnewline _ (by simp)
    have hcloses : Closes code.value (code.bytes ++ 32 :: last) :=
      ⟨number_bytes code _, hblank last⟩
    obtain ⟨before, after, s', hstops, hiff, hends⟩ := hinside.stops hinner hlast hcloses
    refine ⟨_, after, s', hstops.cons (hnewline _ List.mem_cons_self) (hs.continues_iff.mpr hopens),
      hiff.trans ?_, fun h ↦ ⟨_, hends h⟩⟩
    simp only [closes_iff, not_not]
    rfl

/-! ### Streams that carry a reply -/

variable {reply : FtpReply}

/-- A character of a part of a stream. -/
theorem split_items {before after : List UInt8} {b : UInt8}
    (hitems : chars items = before ++ b :: after) :
    ∃ p post, items = p ++ .char b :: post ∧ chars p = before ∧ chars post = after := by
  obtain ⟨p, q, rfl, hp, hq⟩ := List.filterMap_eq_append_iff.mp hitems
  obtain ⟨skipped, item, post, rfl, hskipped, hitem, hpost⟩ := List.filterMap_eq_cons_iff.mp hq
  cases item with
  | negotiation verb option => cases hitem
  | char c =>
    cases Option.some.inj hitem
    refine ⟨p ++ skipped, post, (List.append_assoc _ _ _).symm, ?_, hpost⟩
    have hnone : chars skipped = [] := List.filterMap_eq_nil_iff.mpr hskipped
    rw [chars_append, hnone, List.append_nil]
    exact hp

theorem first_offer (hoffer : ¬NoOffer p) :
    ∃ p₁ verb option p₂, p = p₁ ++ .negotiation verb option :: p₂ ∧ NoOffer p₁ ∧
      ¬(verb = .doo ∨ verb = .dont) := by
  induction p with
  | nil => exact absurd (fun verb option hmem ↦ absurd hmem List.not_mem_nil) hoffer
  | cons item p ih =>
    by_cases hitem : ∀ verb option, item = .negotiation verb option → verb = .doo ∨ verb = .dont
    · have hrest : ¬NoOffer p := fun hno ↦ hoffer fun verb option hmem ↦
        (List.mem_cons.mp hmem).elim (fun h ↦ hitem verb option h.symm) (hno verb option)
      obtain ⟨p₁, verb, option, p₂, rfl, hno, hverb⟩ := ih hrest
      refine ⟨item :: p₁, verb, option, p₂, rfl, fun v o hmem ↦ ?_, hverb⟩
      exact (List.mem_cons.mp hmem).elim (fun h ↦ hitem v o h.symm) (hno v o)
    · push Not at hitem
      obtain ⟨verb, option, rfl, hverb⟩ := hitem
      exact ⟨[], verb, option, p, rfl, fun v o hmem ↦ absurd hmem List.not_mem_nil,
        not_or.mpr hverb⟩

theorem wire_ne_nil (hitems : items ≠ []) : wire items ≠ [] := by
  cases items with
  | nil => exact absurd rfl hitems
  | cons item items => cases item <;> exact List.cons_ne_nil _ _

/-- Behind an offer too much is read and answered. -/
theorem sent_ne_of_offer {verb : Verb} {option : UInt8} (hno : NoOffer p)
    (hplain : ∀ b ∈ chars p, b ≠ 255) (hgo : goesOn s (chars p) = some s')
    (hverb : ¬(verb = .doo ∨ verb = .dont)) (hq : q ≠ [])
    (hreturns : Returns s (wire (p ++ .negotiation verb option :: q) ++ rest) [] r) :
    r.sent ≠ answers (p ++ .negotiation verb option :: q) rest := by
  intro hsent
  obtain ⟨b, more, hmore⟩ : ∃ b more, wire q ++ rest = b :: more :=
    List.exists_cons_of_ne_nil (List.append_ne_nil_of_left_ne_nil (wire_ne_nil hq) rest)
  have hwire : wire (.negotiation verb option :: q) ++ rest =
      255 :: (verb.byte :: option :: b :: more) := by
    rw [← hmore]
    rfl
  rw [wire_append, List.append_assoc, returns_items hno hplain hgo, hwire, returns_iac,
    negotiate_offer hverb] at hreturns
  have hprefix := hreturns.sent_prefix
  rw [hsent, answers_append, hwire, List.nil_append, List.prefix_append_right_inj, answers,
    List.cons_prefix_cons] at hprefix
  -- The second answer stands for no negotiation: only one byte was read before it.
  have hmem := hprefix.2.subset List.mem_cons_self
  have hlength := length_left_of_mem_answers hmem
  rw [hmore, List.length_cons] at hlength
  simp only at hlength
  omega

/-- A reply in a stream is consumed if and only if every negotiation in it is a request, and no line
before the last one is taken for it. -/
theorem consumes_iff (hcarries : Carries items reply) (self : FtpClient) (rest : List UInt8) :
    Consumes self reply items rest ↔ NoOffer items ∧ Unmistakable reply := by
  obtain ⟨before, after, s', hstops, hiff, hends⟩ := reply.stops (outside_startVars self)
  obtain ⟨p, post, rfl, rfl, rfl⟩ := split_items (hcarries.chars_eq.trans hstops.text_eq)
  have hplain : ∀ b ∈ chars p, b ≠ 255 := by
    intro b hb
    have hmem : b ∈ lineBytes reply.lines := hstops.text_eq ▸ List.mem_append_left _ hb
    obtain ⟨line, hline, hb'⟩ := List.mem_flatMap.mp hmem
    rcases List.mem_append.mp hb' with hb' | hb'
    · exact (reply.plain line hline b hb').2
    · rw [List.mem_singleton.mp hb']
      decide
  by_cases hoffer : NoOffer p
  · have hreplies (r : Result) : Replies self (wire (p ++ .char 10 :: post) ++ rest) r ↔
        r = finish s' (wire post ++ rest) (answers p (10 :: (wire post ++ rest))) := by
      have hwire : wire (p ++ .char 10 :: post) ++ rest = wire p ++ 10 :: (wire post ++ rest) := by
        rw [wire_append, List.append_assoc]
        rfl
      rw [hwire]
      exact (returns_items hoffer hplain hstops.goesOn_eq).trans (returns_finish hstops.done)
    by_cases hpost : post = []
    · subst hpost
      refine iff_of_true ?_ ⟨fun verb option hmem ↦ ?_, hiff.mp rfl⟩
      · obtain ⟨text, hn, hcode⟩ := hends rfl
        refine ⟨_, (hreplies _).mpr rfl, rfl, ?_, ?_, ?_⟩
        · rw [answers_append]
          exact (List.append_nil _).symm
        · exact hcode.trans (number_bytes _ _)
        · have hfirst := toNat_digitByte reply.code.first
          have hne : digitByte reply.code.first ≠ 0 := fun h ↦ by
            rw [h] at hfirst
            exact absurd hfirst (by simp; omega)
          have hvalue : s'.n = (digitByte reply.code.first).toNat := hn _ rfl hne
          change s'.n - 48 = _
          rw [hvalue, hfirst]
          omega
      · exact hoffer verb option ((List.mem_append.mp hmem).resolve_right (by simp))
    · refine iff_of_false ?_ fun ⟨_, hunmistakable⟩ ↦ ?_
      · rintro ⟨r, hr, hinput, -⟩
        rw [(hreplies r).mp hr] at hinput
        refine wire_ne_nil hpost (List.append_cancel_right (hinput.trans ?_))
        exact (List.nil_append rest).symm
      · have hlast : post.getLast? = some (.char 10) := by
          have hlast := hcarries.getLast_eq
          rwa [List.append_cons, List.getLast?_append_of_ne_nil _ hpost] at hlast
        have hmem : (10 : UInt8) ∈ chars post :=
          List.mem_filterMap.mpr ⟨_, List.mem_of_getLast? hlast, rfl⟩
        rw [hiff.mpr hunmistakable] at hmem
        exact List.not_mem_nil hmem
  · obtain ⟨p₁, verb, option, p₂, rfl, hno, hverb⟩ := first_offer hoffer
    refine iff_of_false ?_ fun ⟨hall, _⟩ ↦ hverb (hall verb option (by simp))
    rintro ⟨r, hr, -, hsent, -⟩
    have hgo := hstops.goesOn_eq
    rw [chars_append, goesOn_append] at hgo
    obtain ⟨s₁, hs₁, -⟩ := Option.bind_eq_some_iff.mp hgo
    have hassoc : p₁ ++ .negotiation verb option :: p₂ ++ .char 10 :: post =
        p₁ ++ .negotiation verb option :: (p₂ ++ .char 10 :: post) := by
      simp
    rw [hassoc] at hr hsent
    refine sent_ne_of_offer hno (fun b hb ↦ hplain b ?_) hs₁ hverb (by simp) hr hsent
    rw [chars_append]
    exact List.mem_append_left _ hb

/-- For every stream, `getreply` ends if and only if the lines in it end a reply. For every reply in
a stream, with negotiations anywhere in it, a call consumes the reply as it should if and only if
every negotiation is a request, and no line before the last one is taken for it. -/
theorem getreply_frames_iff (self : FtpClient) :
    (∀ input, (∃ r, Replies self input r) ↔ EndsReply (completeLines (plainText input))) ∧
      ∀ reply items rest, Carries items reply →
        (Consumes self reply items rest ↔ NoOffer items ∧ Unmistakable reply) :=
  ⟨getreply_ends_iff self, fun _ _ rest hcarries ↦ consumes_iff hcarries self rest⟩

/-- The code 230. -/
def loggedIn : ReplyCode where
  first := 2
  second := 3
  third := 0
  first_ne := by decide

/-- A reply of three lines. -/
def welcome : FtpReply where
  code := loggedIn
  text := [72]
  more := some ([[50, 51, 48, 45], []], [75])
  plain := by decide +kernel
  inner_open := by decide

/-- A reply whose second line begins with its code. -/
def fileCount : FtpReply where
  code := loggedIn
  text := []
  more := some ([[50, 51, 48, 48]], [])
  plain := by decide +kernel
  inner_open := by decide

def emptyClient : FtpClient where
  code := 0
  pasv := List.replicate 64 0
  replyString := []

/-- The reply of three lines, with a request inside of its last code. -/
theorem consumes_welcome :
    Consumes emptyClient welcome
      ([50, 51, 48, 45, 72, 10, 50, 51, 48, 45, 10, 10, 50].map Item.char ++
        .negotiation .doo 1 :: [51, 48, 32, 75, 10].map Item.char) [50, 50, 54] := by
  refine ((getreply_frames_iff emptyClient).2 welcome _ _ ⟨by decide, by decide⟩).mpr
    ⟨fun verb option hmem ↦ .inl ?_, by decide⟩
  obtain ⟨rfl, -⟩ : verb = .doo ∧ option = 1 := by simpa using hmem
  rfl

/-- A connection that ends in a reply, an offer in a reply, and a line that begins with the code. -/
theorem not_getreply_frames :
    (∀ r, ¬Replies emptyClient [50, 51, 48, 32, 79] r) ∧
      ¬Consumes emptyClient welcome
        (.negotiation .will 1 ::
          [50, 51, 48, 45, 72, 10, 50, 51, 48, 45, 10, 10, 50, 51, 48, 32, 75, 10].map Item.char)
        [] ∧
      ¬Consumes emptyClient fileCount
        ([50, 51, 48, 45, 10, 50, 51, 48, 48, 10, 50, 51, 48, 32, 10].map Item.char) [] := by
  refine ⟨fun r hr ↦ ?_, fun h ↦ ?_, fun h ↦ ?_⟩
  · change Returns (startVars emptyClient) [50, 51, 48, 32, 79] [] r at hr
    iterate 5 rw [returns_char (by decide) (by decide)] at hr
    exact not_returns_eof _ _ _ hr
  · have hno := ((consumes_iff ⟨by decide, by decide⟩ _ _).mp h).1 .will 1 List.mem_cons_self
    exact absurd hno (by decide)
  · exact absurd ((consumes_iff ⟨by decide, by decide⟩ _ _).mp h).2 (by decide)

end Katmai.Ftpclient
