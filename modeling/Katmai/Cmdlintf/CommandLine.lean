import Katmai.Foundation.Words

/-!
# Words of a command line

`nofwords`, `nthword` and `nthwordptr` scan a line from its start each time they are called. Words
have blanks and tabs between them. `nofwords` counts them, `nthword` gives the first 63 characters
of one of them, and `nthwordptr` what is left of the line from one of them on
(`nofwords_eq`, `nthword_succ`, `nthwordptr_succ`).
-/

set_option autoImplicit false
set_option relaxedAutoImplicit false

namespace Katmai.Cmdlintf

open Foundation

/-- A C string whose length an `int` can hold. -/
structure CString where
  chars : List UInt8
  nonzero : 0 ∉ chars
  length_lt : chars.length < 2147483648

/-- The characters of a literal. -/
def ascii (literal : String) : List UInt8 :=
  literal.toList.map fun c ↦ UInt8.ofNat c.toNat

/-- `whitespace` of readline. -/
def whitespace (c : UInt8) : Bool :=
  c = 32 ∨ c = 9

/-! ### The functions -/

/-- The loop of `nofwords`. -/
def nofwordsLoop : List UInt8 → ℕ → ℕ → ℕ
  | [], j, m => if m > 0 then j + 1 else j
  | c :: rest, j, m =>
    if whitespace c then
      if m > 0 then nofwordsLoop rest (j + 1) 0 else nofwordsLoop rest j m
    else nofwordsLoop rest j (m + 1)

/-- `nofwords` -/
def nofwords (cmd : List UInt8) : ℕ :=
  nofwordsLoop cmd 0 0

/-- The loop of `nthword`: what is in the buffer of `MAX_CMD_WORD_LEN` at the end. -/
def nthwordLoop (n : ℕ) : List UInt8 → ℕ → ℕ → List UInt8 → List UInt8
  | [], _, _, word => word
  | c :: rest, j, m, word =>
    if whitespace c then
      if m > 0 then
        if j = n then word else nthwordLoop n rest (j + 1) 0 word
      else nthwordLoop n rest j m word
    else
      nthwordLoop n rest j (m + 1) (if j = n ∧ word.length < 63 then word ++ [c] else word)

/-- `nthword` -/
def nthword (cmd : List UInt8) (n : ℕ) : Option (List UInt8) :=
  let word := nthwordLoop n cmd 1 0 []
  if word = [] then none else some word

/-- The loop of `nthwordptr`. -/
def nthwordptrLoop (n : ℕ) : List UInt8 → ℕ → ℕ → Option (List UInt8)
  | [], _, _ => none
  | c :: rest, j, m =>
    if whitespace c then
      if m > 0 then
        if j = n then none else nthwordptrLoop n rest (j + 1) 0
      else nthwordptrLoop n rest j m
    else if j = n then some (c :: rest)
    else nthwordptrLoop n rest j (m + 1)

/-- `nthwordptr`: the line from the pointer on. -/
def nthwordptr (cmd : List UInt8) (n : ℕ) : Option (List UInt8) :=
  nthwordptrLoop n cmd 1 0

/-! ### Words -/

/-- The words of a line. -/
def lineWords (cmd : List UInt8) : List (List UInt8) :=
  words whitespace cmd

/-- In a word, the rest of it. -/
def restOfWord (cmd : List UInt8) : List UInt8 :=
  cmd.takeWhile fun c ↦ !whitespace c

/-- In a word, the line behind it. -/
def behindWord (cmd : List UInt8) : List UInt8 :=
  cmd.dropWhile fun c ↦ !whitespace c

section Words

variable {c : UInt8} (cmd : List UInt8)

theorem lineWords_blank (hc : whitespace c = true) : lineWords (c :: cmd) = lineWords cmd :=
  words_cons_of_blank hc cmd

theorem lineWords_word (hc : whitespace c = false) :
    lineWords (c :: cmd) = (c :: restOfWord cmd) :: lineWords (behindWord cmd) :=
  words_cons_of_not_blank hc cmd

theorem restOfWord_blank (hc : whitespace c = true) : restOfWord (c :: cmd) = [] :=
  List.takeWhile_cons_of_neg (by simp [hc])

theorem restOfWord_word (hc : whitespace c = false) :
    restOfWord (c :: cmd) = c :: restOfWord cmd :=
  List.takeWhile_cons_of_pos (by simp [hc])

theorem behindWord_blank (hc : whitespace c = true) : behindWord (c :: cmd) = c :: cmd :=
  List.dropWhile_cons_of_neg (by simp [hc])

theorem behindWord_word (hc : whitespace c = false) : behindWord (c :: cmd) = behindWord cmd :=
  List.dropWhile_cons_of_pos (by simp [hc])

/-- The text from a word on, from within an earlier word. -/
theorem textFrom_succ_word (hc : whitespace c = false) (n : ℕ) :
    textFrom whitespace (n + 1) (c :: cmd) = textFrom whitespace n (behindWord cmd) := by
  rw [textFrom, List.dropWhile_cons_of_neg (by simp [hc]),
    List.dropWhile_cons_of_pos (by simp [hc]), behindWord]

theorem textFrom_blank (hc : whitespace c = true) (n : ℕ) :
    textFrom whitespace n (c :: cmd) = textFrom whitespace n cmd := by
  cases n with
  | zero => exact List.dropWhile_cons_of_pos hc
  | succ n => rw [textFrom, textFrom, List.dropWhile_cons_of_pos hc]

end Words

/-! ### What the functions find -/

/-- In a word, that word and those behind it are left to count. -/
theorem nofwordsLoop_eq (cmd : List UInt8) (j m : ℕ) :
    nofwordsLoop cmd j m =
      if m > 0 then j + 1 + (lineWords (behindWord cmd)).length
      else j + (lineWords cmd).length := by
  induction cmd generalizing j m with
  | nil => rfl
  | cons c rest ih =>
    rw [nofwordsLoop]
    cases hc : whitespace c with
    | true =>
      rw [if_pos rfl, behindWord_blank rest hc, lineWords_blank rest hc, ih, ih,
        if_neg (Nat.lt_irrefl 0)]
      split_ifs <;> rfl
    | false =>
      rw [if_neg Bool.false_ne_true, behindWord_word rest hc, lineWords_word rest hc, ih,
        if_pos (Nat.succ_pos m), List.length_cons]
      split_ifs <;> omega

theorem nofwords_eq (cmd : List UInt8) : nofwords cmd = (lineWords cmd).length := by
  rw [nofwords, nofwordsLoop_eq, if_neg (Nat.lt_irrefl 0), Nat.zero_add]

/-- In the word that is looked for, its rest is added as far as there is room. -/
theorem nthwordLoop_inside (n : ℕ) (cmd : List UInt8) {m : ℕ} (hm : 0 < m) (word : List UInt8)
    (hroom : word.length ≤ 63) :
    nthwordLoop n cmd n m word = word ++ (restOfWord cmd).take (63 - word.length) := by
  induction cmd generalizing m word with
  | nil => simp [nthwordLoop, restOfWord]
  | cons c rest ih =>
    rw [nthwordLoop]
    cases hc : whitespace c with
    | true => rw [if_pos rfl, if_pos hm, if_pos rfl, restOfWord_blank rest hc, List.take_nil,
        List.append_nil]
    | false =>
      rw [if_neg Bool.false_ne_true, restOfWord_word rest hc]
      by_cases hlt : word.length < 63
      · obtain ⟨room, hroom⟩ := Nat.exists_eq_add_of_lt hlt
        have hleft : 63 - word.length = room + 1 := by omega
        have hlater : 63 - (word ++ [c]).length = room := by
          rw [List.length_append, List.length_singleton]
          omega
        rw [if_pos ⟨rfl, hlt⟩, ih (Nat.succ_pos m) _ (by simp; omega), hlater, hleft,
          List.take_succ_cons, List.append_assoc]
        rfl
      · have hfull : 63 - word.length = 0 := by omega
        rw [if_neg fun hand ↦ hlt hand.2, ih (Nat.succ_pos m) _ hroom, hfull, List.take_zero,
          List.take_zero]

/-- The first 63 characters of a word, of which there are none if there is no such word. -/
def cutWord (word : Option (List UInt8)) : List UInt8 :=
  (word.getD []).take 63

/-- Before the word that is looked for. -/
theorem nthwordLoop_before (n : ℕ) (cmd : List UInt8) (j m : ℕ) :
    (0 < m → j < n → nthwordLoop n cmd j m [] =
        cutWord (lineWords (behindWord cmd))[n - (j + 1)]?) ∧
      (m = 0 → j ≤ n → nthwordLoop n cmd j m [] = cutWord (lineWords cmd)[n - j]?) := by
  induction cmd generalizing j m with
  | nil => exact ⟨fun _ _ ↦ rfl, fun _ _ ↦ rfl⟩
  | cons c rest ih =>
    rw [nthwordLoop]
    cases hc : whitespace c with
    | true =>
      rw [if_pos rfl, behindWord_blank rest hc, lineWords_blank rest hc]
      constructor
      · intro hm hj
        rw [if_pos hm, if_neg (Nat.ne_of_lt hj)]
        exact (ih (j + 1) 0).2 rfl hj
      · rintro rfl hj
        rw [if_neg (Nat.lt_irrefl 0)]
        exact (ih j 0).2 rfl hj
    | false =>
      rw [if_neg Bool.false_ne_true, behindWord_word rest hc, lineWords_word rest hc]
      constructor
      · intro hm hj
        rw [if_neg fun hand ↦ Nat.ne_of_lt hj hand.1]
        exact (ih j (m + 1)).1 (Nat.succ_pos m) hj
      · rintro rfl hj
        obtain rfl | hlt := Nat.eq_or_lt_of_le hj
        · rw [if_pos ⟨rfl, by decide⟩, List.nil_append,
            nthwordLoop_inside j rest Nat.one_pos [c] (by simp), Nat.sub_self]
          rfl
        · obtain ⟨d, rfl⟩ := Nat.exists_eq_add_of_lt hlt
          have hsub : j + d + 1 - j = d + 1 := by omega
          have hsub' : j + d + 1 - (j + 1) = d := by omega
          rw [if_neg fun hand ↦ Nat.ne_of_lt hlt hand.1, (ih j 1).1 Nat.one_pos hlt, hsub, hsub',
            List.getElem?_cons_succ]

/-- `nthword` gives the first 63 characters of a word. -/
theorem nthword_succ (cmd : List UInt8) (n : ℕ) :
    nthword cmd (n + 1) = (lineWords cmd)[n]?.map (List.take 63) := by
  have hloop : nthwordLoop (n + 1) cmd 1 0 [] = cutWord (lineWords cmd)[n]? :=
    (nthwordLoop_before (n + 1) cmd 1 0).2 rfl (Nat.succ_le_succ (Nat.zero_le n))
  simp only [nthword, hloop]
  cases hword : (lineWords cmd)[n]? with
  | none => rfl
  | some word =>
    have hsome : word ≠ [] := ne_nil_of_mem_words (List.mem_of_getElem? hword)
    have htake : word.take 63 ≠ [] := by simp [hsome]
    exact if_neg htake

/-- Before the word that is looked for. -/
theorem nthwordptrLoop_before (n : ℕ) (cmd : List UInt8) (j m : ℕ) :
    (0 < m → j < n → nthwordptrLoop n cmd j m =
        if textFrom whitespace (n - (j + 1)) (behindWord cmd) = [] then none
        else some (textFrom whitespace (n - (j + 1)) (behindWord cmd))) ∧
      (m = 0 → j ≤ n → nthwordptrLoop n cmd j m =
        if textFrom whitespace (n - j) cmd = [] then none
        else some (textFrom whitespace (n - j) cmd)) := by
  induction cmd generalizing j m with
  | nil =>
    have hnil (k : ℕ) : textFrom whitespace k [] = [] :=
      (textFrom_eq_nil_iff k []).mpr (Nat.zero_le k)
    refine ⟨fun _ _ ↦ ?_, fun _ _ ↦ ?_⟩
    · exact (if_pos (hnil _)).symm
    · exact (if_pos (hnil _)).symm
  | cons c rest ih =>
    rw [nthwordptrLoop]
    cases hc : whitespace c with
    | true =>
      rw [if_pos rfl, behindWord_blank rest hc, textFrom_blank rest hc, textFrom_blank rest hc]
      constructor
      · intro hm hj
        rw [if_pos hm, if_neg (Nat.ne_of_lt hj)]
        exact (ih (j + 1) 0).2 rfl hj
      · rintro rfl hj
        rw [if_neg (Nat.lt_irrefl 0)]
        exact (ih j 0).2 rfl hj
    | false =>
      rw [if_neg Bool.false_ne_true, behindWord_word rest hc]
      constructor
      · intro hm hj
        rw [if_neg (Nat.ne_of_lt hj)]
        exact (ih j (m + 1)).1 (Nat.succ_pos m) hj
      · rintro rfl hj
        obtain rfl | hlt := Nat.eq_or_lt_of_le hj
        · have hfrom : textFrom whitespace 0 (c :: rest) = c :: rest :=
            List.dropWhile_cons_of_neg (by simp [hc])
          rw [if_pos rfl, Nat.sub_self, hfrom, if_neg (List.cons_ne_nil c rest)]
        · obtain ⟨d, rfl⟩ := Nat.exists_eq_add_of_lt hlt
          have hsub : j + d + 1 - j = d + 1 := by omega
          have hsub' : j + d + 1 - (j + 1) = d := by omega
          rw [if_neg (Nat.ne_of_lt hlt), (ih j 1).1 Nat.one_pos hlt, hsub, hsub',
            textFrom_succ_word rest hc]

/-- `nthwordptr` gives the line from a word on, or nothing when there is no such word. -/
theorem nthwordptr_succ (cmd : List UInt8) (n : ℕ) :
    nthwordptr cmd (n + 1) =
      if textFrom whitespace n cmd = [] then none else some (textFrom whitespace n cmd) :=
  (nthwordptrLoop_before (n + 1) cmd 1 0).2 rfl (Nat.succ_le_succ (Nat.zero_le n))

end Katmai.Cmdlintf
