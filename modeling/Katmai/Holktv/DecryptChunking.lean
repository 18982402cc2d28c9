import Mathlib.Data.List.GetD
import Katmai.Holktv.GenericDecrypt

/-!
# Decryption does not depend on the chunks

A channel is first `Collecting`: it has gathered a number of bytes, fewer than 25, of the header.
Then it is `Streaming`: the file is no longer new and the channel's cipher stands at some state.
A chunk too short to complete the header leaves the channel collecting and delivers nothing
(`feedChunk_short`). The chunk that completes it delivers what follows the header, deciphered
(`feedChunk_first`), and every later chunk is delivered deciphered as a whole
(`feedChunk_streaming`). Along a whole file the bytes delivered are therefore one decryption of
everything from offset 25 on, however the file is cut (`decrypt_chunks`). A header that fails either
check is refused with a negative return value (`decryptFirst_refuses_iff`).
-/

set_option autoImplicit false
set_option relaxedAutoImplicit false

namespace Katmai.Holktv

open Katmai.Foundation Katmai.Misclib

/-! ### Files the function accepts -/

/-- The cipher with which the last nine bytes of a file's header are deciphered: set from the key,
and past the bytes that are thrown away. -/
def headerCipher (md5rc4key : ℕ → UInt8) (image : List UInt8) : Rc4Key :=
  advance rc4Next (rc4SetKey 16 md5rc4key) ((image.getD 15 0).toNat + 3)

/-- The last nine bytes of a file's header, deciphered. -/
def headerTail (md5rc4key : ℕ → UInt8) (image : List UInt8) : List UInt8 :=
  crypt rc4Next (headerCipher md5rc4key image) ((image.drop 16).take 9)

/-- A file image whose header passes both checks. -/
structure PassesHeaderChecks (md5rc4key : ℕ → UInt8) (image : List UInt8) : Prop where
  header : ∀ i < 15, image.getD i 0 = headerByte (image.getD 15 0) i
  additional : ∀ i < 8, (headerTail md5rc4key image).getD (i + 1) 0 =
    additionalByte ((headerTail md5rc4key image).getD 0 0) i

section Prefix

variable (md5rc4key : ℕ → UInt8) {front : List UInt8} (rest : List UInt8)

theorem headerCipher_append (h : 25 ≤ front.length) :
    headerCipher md5rc4key (front ++ rest) = headerCipher md5rc4key front := by
  rw [headerCipher, headerCipher, List.getD_append _ _ _ _ (by omega)]

theorem headerTail_append (h : 25 ≤ front.length) :
    headerTail md5rc4key (front ++ rest) = headerTail md5rc4key front := by
  have htake : ((front ++ rest).drop 16).take 9 = (front.drop 16).take 9 := by
    rw [List.drop_append_of_le_length (by omega),
      List.take_append_of_le_length (by rw [List.length_drop]; omega)]
  rw [headerTail, headerTail, headerCipher_append md5rc4key rest h, htake]

/-- The checks read the header only. -/
theorem passesHeaderChecks_append (h : 25 ≤ front.length) :
    PassesHeaderChecks md5rc4key (front ++ rest) ↔ PassesHeaderChecks md5rc4key front := by
  have hget : ∀ i < 25, (front ++ rest).getD i 0 = front.getD i 0 :=
    fun i hi ↦ List.getD_append _ _ _ _ (by omega)
  have htail := headerTail_append md5rc4key rest h
  constructor
  · rintro ⟨hheader, hadditional⟩
    refine ⟨fun i hi ↦ ?_, htail ▸ hadditional⟩
    rw [← hget i (by omega), ← hget 15 (by decide)]
    exact hheader i hi
  · rintro ⟨hheader, hadditional⟩
    refine ⟨fun i hi ↦ ?_, htail.symm ▸ hadditional⟩
    rw [hget i (by omega), hget 15 (by decide)]
    exact hheader i hi

end Prefix

/-! ### The two phases of a channel -/

/-- The channel has gathered some bytes of a new file's header. -/
structure Collecting (s : HolktvStb) (channel : Fin 5) (front : List UInt8) : Prop where
  newFile : s.newFile channel = true
  holIdx : s.holIdx channel = front.length
  header : bytesAt s.mem ⟨.holHeader channel, 0⟩ front.length = front

/-- The channel is past the header, with its cipher at a state. -/
structure Streaming (s : HolktvStb) (channel : Fin 5) (cipher : Rc4Key) : Prop where
  newFile : s.newFile channel = false
  rc4key : s.rc4key channel = cipher

/-- A reset begins a new file. -/
theorem collecting_reset (s : HolktvStb) (channel : Fin 5) :
    Collecting (hktvGenericDecrypt s none 0 channel).1 channel [] where
  newFile := Function.update_self _ _ _
  holIdx := Function.update_self _ _ _
  header := rfl

section Step

variable {s : HolktvStb} {channel : Fin 5} {front : List UInt8} {cipher : Rc4Key}
  (call : ChunkCall)

/-- The caller's buffer holds the chunk. -/
theorem bytesAt_callMemory (mem : Pointer Region → UInt8) :
    bytesAt (callMemory mem call) ⟨.buffer, 0⟩ call.chunk.length = call.chunk := by
  refine List.ext_getElem (length_bytesAt _ _ _) ?_
  intro i _ hi
  simp only [bytesAt, List.getElem_map, List.getElem_range, Pointer.start_add, callMemory]
  exact List.getD_eq_getElem _ _ hi

/-- A new file is not streamed. -/
theorem Collecting.newFile_ne (hs : Collecting s channel front) :
    ¬ s.newFile channel = false := by
  rw [hs.newFile]
  simp

/-- A call finds the header as the last one left it. -/
theorem Collecting.callMemory (hs : Collecting s channel front) :
    Collecting { s with mem := Holktv.callMemory s.mem call } channel front where
  newFile := hs.newFile
  holIdx := hs.holIdx
  header := by
    refine Eq.trans (bytesAt_congr fun i _ ↦ ?_) hs.header
    rw [Pointer.start_add]
    rfl

/-- Past the header a chunk is deciphered as a whole. -/
theorem feedChunk_streaming (hs : Streaming s channel cipher) :
    Streaming (feedChunk s channel call).1 channel (advance rc4Next cipher call.chunk.length) ∧
      (feedChunk s channel call).2 =
        ((call.chunk.length : ℤ), crypt rc4Next cipher call.chunk) := by
  have hcall : hktvGenericDecrypt { s with mem := callMemory s.mem call } (some ⟨.buffer, 0⟩)
      call.chunk.length channel =
        (channelRc4 { s with mem := callMemory s.mem call } channel call.chunk.length
          ⟨.buffer, 0⟩ ⟨.buffer, 0⟩, (call.chunk.length : ℤ)) := if_pos hs.newFile
  rw [feedChunk, hcall]
  refine ⟨⟨hs.newFile, ?_⟩, Prod.ext rfl ?_⟩
  · refine (channelRc4_rc4key _ _ _ _ _).trans ?_
    rw [hs.rc4key]
  · refine (channelRc4_bytesAt _ _ _ _ _ (.inr (Nat.le_refl _))).trans ?_
    rw [hs.rc4key, bytesAt_callMemory]

/-- A chunk too short for the header is added to what was gathered. -/
theorem feedChunk_short (hs : Collecting s channel front)
    (hshort : call.chunk.length + front.length < 25) :
    Collecting (feedChunk s channel call).1 channel (front ++ call.chunk) ∧
      (feedChunk s channel call).1.md5rc4key = s.md5rc4key ∧
      (feedChunk s channel call).2 = (0, []) := by
  have hs' := hs.callMemory call
  have hlen : call.chunk.length + s.holIdx channel < 25 := by rwa [hs.holIdx]
  simp only [feedChunk, hktvGenericDecrypt, if_neg hs.newFile_ne, if_pos hlen]
  refine ⟨⟨hs.newFile, ?_, ?_⟩, trivial, rfl⟩
  · refine (Function.update_self _ _ _).trans ?_
    rw [hs.holIdx, List.length_append]
  · rw [List.length_append, hs.holIdx, bytesAt_memcpy, hs'.header, bytesAt_callMemory]

end Step

/-! ### The chunk that completes the header -/

section First

variable {s : HolktvStb} {channel : Fin 5} {front chunk : List UInt8}

theorem headerRest_of_collecting (hs : Collecting s channel front) (hfront : front.length < 25) :
    headerRest s channel = 25 - front.length := by
  rw [headerRest, hs.holIdx, if_pos hfront]

/-- The completed header is the front of what has been fed so far. -/
theorem completeHeader_of_collecting (hs : Collecting s channel front)
    (hbuffer : bytesAt s.mem ⟨.buffer, 0⟩ chunk.length = chunk) (hfront : front.length < 25)
    (hlong : 25 ≤ (front ++ chunk).length) :
    bytesAt (completeHeader s ⟨.buffer, 0⟩ channel).mem ⟨.holHeader channel, 0⟩ 25 =
      (front ++ chunk).take 25 := by
  have hidx : s.holIdx channel < 25 := by rwa [hs.holIdx]
  have hrest : 25 - front.length ≤ chunk.length := by
    rw [List.length_append] at hlong
    omega
  have hchunk :
      bytesAt s.mem ⟨.buffer, 0⟩ (25 - front.length) = chunk.take (25 - front.length) := by
    rw [← take_bytesAt _ _ hrest, hbuffer]
  rw [bytesAt_completeHeader _ _ _ hidx, headerRest_of_collecting hs hfront, hs.holIdx, hs.header,
    hchunk, List.take_append, List.take_of_length_le (Nat.le_of_lt hfront)]

/-- With an accepted header, the last nine bytes of it are deciphered into `rcbuf`. -/
theorem startCipher_of_header {image : List UInt8} (key : UInt8)
    (hheader : bytesAt s.mem ⟨.holHeader channel, 0⟩ 25 = image.take 25)
    (hkey : key = image.getD 15 0) :
    bytesAt (startCipher s channel key).mem ⟨.rcbuf, 0⟩ 9 = headerTail s.md5rc4key image := by
  have htail : bytesAt s.mem ⟨.holHeader channel, 16⟩ 9 = (image.drop 16).take 9 := by
    rw [← Pointer.start_add, ← Nat.add_sub_cancel_left 16 9, ← drop_bytesAt, hheader,
      List.drop_take]
  rw [bytesAt_startCipher, htail, hkey]
  rfl

/-- Both checks of the function, made on its memory, are the checks of the file image. -/
theorem headerChecks_iff (hs : Collecting s channel front)
    (hbuffer : bytesAt s.mem ⟨.buffer, 0⟩ chunk.length = chunk) (hfront : front.length < 25)
    (hlong : 25 ≤ (front ++ chunk).length) {t : HolktvStb} {key : UInt8}
    (ht : t = completeHeader s ⟨.buffer, 0⟩ channel)
    (hkey : key = t.mem ⟨.holHeader channel, 15⟩) :
    key = (front ++ chunk).getD 15 0 ∧
      ((∀ i < 15, t.mem ⟨.holHeader channel, i⟩ = headerByte key i) ∧
        (∀ i < 8, (startCipher t channel key).mem ⟨.rcbuf, i + 1⟩ =
          additionalByte ((startCipher t channel key).fmt channel) i) ↔
        PassesHeaderChecks s.md5rc4key (front ++ chunk)) := by
  have hheader : bytesAt t.mem ⟨.holHeader channel, 0⟩ 25 = (front ++ chunk).take 25 := by
    rw [ht]
    exact completeHeader_of_collecting hs hbuffer hfront hlong
  have hbyte : ∀ i < 25, t.mem ⟨.holHeader channel, i⟩ = (front ++ chunk).getD i 0 := by
    intro i hi
    rw [mem_eq_getD_of_bytesAt hheader hi 0, List.getD_eq_getElem?_getD,
      List.getElem?_take_of_lt hi, List.getD_eq_getElem?_getD]
  have hkey' : key = (front ++ chunk).getD 15 0 := hkey.trans (hbyte 15 (by decide))
  have htail := startCipher_of_header key hheader hkey'
  rw [ht, completeHeader_md5rc4key, ← ht] at htail
  have hfmt : (startCipher t channel key).fmt channel =
      (headerTail s.md5rc4key (front ++ chunk)).getD 0 0 := by
    rw [startCipher_fmt, mem_eq_getD_of_bytesAt htail (by decide) 0]
  refine ⟨hkey', fun h ↦ ⟨fun i hi ↦ ?_, fun i hi ↦ ?_⟩, fun h ↦ ⟨fun i hi ↦ ?_, fun i hi ↦ ?_⟩⟩
  · rw [← hbyte i (by omega), ← hkey']
    exact h.1 i hi
  · rw [← mem_eq_getD_of_bytesAt htail (Nat.succ_lt_succ hi) 0, ← hfmt]
    exact h.2 i hi
  · rw [hkey', hbyte i (by omega)]
    exact h.header i hi
  · rw [hfmt, mem_eq_getD_of_bytesAt htail (Nat.succ_lt_succ hi) 0]
    exact h.additional i hi

/-- The call that completes a header accepted by the checks goes on to the rest of the chunk. -/
theorem decryptFirst_eq_of_passes (hs : Collecting s channel front)
    (hbuffer : bytesAt s.mem ⟨.buffer, 0⟩ chunk.length = chunk) (hfront : front.length < 25)
    (hlong : 25 ≤ (front ++ chunk).length)
    (hpass : PassesHeaderChecks s.md5rc4key (front ++ chunk)) :
    ∃ t : HolktvStb, t.newFile channel = false ∧
      t.rc4key channel = advance rc4Next (headerCipher s.md5rc4key (front ++ chunk)) 9 ∧
      bytesAt t.mem ⟨.buffer, 0⟩ chunk.length = chunk ∧
      decryptFirst s ⟨.buffer, 0⟩ chunk.length channel =
        if 0 < chunk.length - (25 - front.length) then
          (channelRc4 t channel (chunk.length - (25 - front.length))
            ⟨.buffer, 25 - front.length⟩ ⟨.buffer, 0⟩,
              ((chunk.length - (25 - front.length) : ℕ) : ℤ))
        else (t, 0) := by
  obtain ⟨hkey, hchecks⟩ := headerChecks_iff hs hbuffer hfront hlong rfl rfl
  obtain ⟨hcheck, hadditional⟩ := hchecks.mpr hpass
  refine ⟨startCipher (completeHeader s ⟨.buffer, 0⟩ channel) channel
    ((completeHeader s ⟨.buffer, 0⟩ channel).mem ⟨.holHeader channel, 15⟩), ?_, ?_, ?_, ?_⟩
  · exact completeHeader_newFile s channel ⟨.buffer, 0⟩
  · rw [startCipher_rc4key, completeHeader_md5rc4key, hkey, ← advance_add]
    rfl
  · refine Eq.trans (bytesAt_congr fun i _ ↦ ?_) hbuffer
    rw [Pointer.start_add, startCipher_mem_buffer, completeHeader_mem_buffer]
  · rw [decryptFirst]
    simp only [headerRest_of_collecting hs hfront]
    rw [if_pos hcheck, if_pos hadditional, Pointer.start_add]

/-- The call that completes a header refuses it exactly when the image fails the checks. -/
theorem decryptFirst_refuses_iff (hs : Collecting s channel front)
    (hbuffer : bytesAt s.mem ⟨.buffer, 0⟩ chunk.length = chunk) (hfront : front.length < 25)
    (hlong : 25 ≤ (front ++ chunk).length) :
    (decryptFirst s ⟨.buffer, 0⟩ chunk.length channel).2 < 0 ↔
      ¬ PassesHeaderChecks s.md5rc4key (front ++ chunk) := by
  rw [← (headerChecks_iff hs hbuffer hfront hlong rfl rfl).2]
  simp only [decryptFirst]
  by_cases hcheck : ∀ i < 15, (completeHeader s ⟨.buffer, 0⟩ channel).mem ⟨.holHeader channel, i⟩ =
      headerByte ((completeHeader s ⟨.buffer, 0⟩ channel).mem ⟨.holHeader channel, 15⟩) i
  · rw [if_pos hcheck]
    split_ifs with hadditional
    · exact iff_of_false (Int.not_lt.mpr (Int.natCast_nonneg _))
        (not_not_intro ⟨hcheck, hadditional⟩)
    · exact iff_of_false (Int.lt_irrefl 0) (not_not_intro ⟨hcheck, hadditional⟩)
    · exact iff_of_true (show (-3 : ℤ) < 0 by decide) fun h ↦ hadditional h.2
  · rw [if_neg hcheck]
    exact iff_of_true (show (-2 : ℤ) < 0 by decide) fun h ↦ hcheck h.1

/-- The chunk that completes an accepted header delivers what follows the header. -/
theorem feedChunk_first (call : ChunkCall) (hs : Collecting s channel front)
    (hfront : front.length < 25) (hlong : 25 ≤ (front ++ call.chunk).length)
    (hpass : PassesHeaderChecks s.md5rc4key (front ++ call.chunk)) :
    Streaming (feedChunk s channel call).1 channel
        (advance rc4Next (advance rc4Next (headerCipher s.md5rc4key (front ++ call.chunk)) 9)
          ((front ++ call.chunk).drop 25).length) ∧
      (feedChunk s channel call).2 =
        ((((front ++ call.chunk).drop 25).length : ℤ),
          crypt rc4Next (advance rc4Next (headerCipher s.md5rc4key (front ++ call.chunk)) 9)
            ((front ++ call.chunk).drop 25)) := by
  have hs' := hs.callMemory call
  have hlen : ¬ call.chunk.length + s.holIdx channel < 25 := by
    rw [hs.holIdx]
    rw [List.length_append] at hlong
    omega
  have hbuffer := bytesAt_callMemory call s.mem
  have hdrop : (front ++ call.chunk).drop 25 = call.chunk.drop (25 - front.length) := by
    rw [List.drop_append, List.drop_of_length_le (Nat.le_of_lt hfront), List.nil_append]
  obtain ⟨t, htnew, htkey, htbuffer, hfirst⟩ :=
    decryptFirst_eq_of_passes hs' hbuffer hfront hlong hpass
  have hcall : hktvGenericDecrypt { s with mem := callMemory s.mem call } (some ⟨.buffer, 0⟩)
      call.chunk.length channel =
        decryptFirst { s with mem := callMemory s.mem call } ⟨.buffer, 0⟩ call.chunk.length
          channel := (if_neg hs.newFile_ne).trans (if_neg hlen)
  rw [feedChunk, hcall, hfirst, hdrop, List.length_drop]
  split_ifs with hpos
  · refine ⟨⟨htnew, ?_⟩, Prod.ext rfl ?_⟩
    · rw [channelRc4_rc4key, htkey]
    · refine (channelRc4_bytesAt _ _ _ _ _ (.inr (Nat.zero_le _))).trans ?_
      rw [htkey, ← Pointer.start_add, ← drop_bytesAt, htbuffer]
  · have hzero : call.chunk.length - (25 - front.length) = 0 := Nat.eq_zero_of_not_pos hpos
    have hnil : call.chunk.drop (25 - front.length) = [] :=
      List.drop_of_length_le (Nat.le_of_sub_eq_zero hzero)
    rw [hzero, hnil]
    exact ⟨⟨htnew, htkey⟩, rfl⟩

end First

/-! ### Whole files -/

section Run

variable {channel : Fin 5}

/-- Past the header, the chunks together are deciphered as one text. -/
theorem feed_streaming (calls : List ChunkCall) (s : HolktvStb) (cipher : Rc4Key)
    (hs : Streaming s channel cipher) :
    (∀ r ∈ feed s channel calls, r.1 = (r.2.length : ℤ)) ∧
      (feed s channel calls).flatMap (·.2) =
        crypt rc4Next cipher (calls.flatMap (·.chunk)) := by
  induction calls generalizing s cipher with
  | nil => exact ⟨fun _ h ↦ absurd h List.not_mem_nil, rfl⟩
  | cons call calls ih =>
    obtain ⟨hnext, hout⟩ := feedChunk_streaming call hs
    obtain ⟨hrc, hdelivered⟩ := ih _ _ hnext
    rw [feed, hout]
    refine ⟨List.forall_mem_cons.mpr ⟨?_, hrc⟩, ?_⟩
    · rw [length_crypt]
    · rw [List.flatMap_cons, hdelivered, List.flatMap_cons, crypt_append]

/-- The chunks of a file, from wherever in the header the channel stands. -/
theorem feed_collecting (calls : List ChunkCall) (s : HolktvStb) (front : List UInt8)
    (hs : Collecting s channel front) (hfront : front.length < 25)
    (hlong : 25 ≤ (front ++ calls.flatMap (·.chunk)).length)
    (hpass : PassesHeaderChecks s.md5rc4key (front ++ calls.flatMap (·.chunk))) :
    (∀ r ∈ feed s channel calls, r.1 = (r.2.length : ℤ)) ∧
      (feed s channel calls).flatMap (·.2) =
        crypt rc4Next
          (advance rc4Next (headerCipher s.md5rc4key (front ++ calls.flatMap (·.chunk))) 9)
          ((front ++ calls.flatMap (·.chunk)).drop 25) := by
  induction calls generalizing s front with
  | nil =>
    rw [List.flatMap_nil, List.append_nil] at hlong
    exact absurd hlong (Nat.not_le_of_lt hfront)
  | cons call calls ih =>
    rw [List.flatMap_cons, ← List.append_assoc] at hlong hpass ⊢
    rw [feed]
    by_cases hshort : call.chunk.length + front.length < 25
    · -- the header is still not complete, and the call has delivered nothing
      obtain ⟨hnext, hkey, hout⟩ := feedChunk_short call hs hshort
      have hfront' : (front ++ call.chunk).length < 25 := by
        rw [List.length_append]
        omega
      rw [← hkey] at hpass ⊢
      obtain ⟨hrc, hdelivered⟩ := ih _ _ hnext hfront' hlong hpass
      rw [hout]
      exact ⟨List.forall_mem_cons.mpr ⟨rfl, hrc⟩, hdelivered⟩
    · have hcomplete : 25 ≤ (front ++ call.chunk).length := by
        rw [List.length_append]
        omega
      have hpass' := (passesHeaderChecks_append s.md5rc4key _ hcomplete).mp hpass
      obtain ⟨hnext, hout⟩ := feedChunk_first call hs hfront hcomplete hpass'
      obtain ⟨hrc, hdelivered⟩ := feed_streaming calls _ _ hnext
      rw [hout, headerCipher_append s.md5rc4key _ hcomplete]
      refine ⟨List.forall_mem_cons.mpr ⟨?_, hrc⟩, ?_⟩
      · rw [length_crypt]
      · rw [List.flatMap_cons, hdelivered, List.drop_append_of_le_length hcomplete, crypt_append]

end Run

/-- Whatever the chunks in which a file with an accepted header is fed to a channel after a reset,
each call returns the number of bytes it delivers, and the bytes delivered are everything from
offset 25 on, deciphered with the keystream of the key past the bytes thrown away and the nine of
the header. -/
theorem decrypt_chunks (s : HolktvStb) (channel : Fin 5) (image : List UInt8)
    (calls : List ChunkCall) (himage : calls.flatMap (·.chunk) = image) (hlong : 25 ≤ image.length)
    (hpass : PassesHeaderChecks s.md5rc4key image) :
    (∀ r ∈ feed (hktvGenericDecrypt s none 0 channel).1 channel calls,
        r.1 = (r.2.length : ℤ)) ∧
      (feed (hktvGenericDecrypt s none 0 channel).1 channel calls).flatMap (·.2) =
        crypt rc4Next
          (advance rc4Next (rc4SetKey 16 s.md5rc4key) ((image.getD 15 0).toNat + 3 + 9))
          (image.drop 25) := by
  subst himage
  rw [← advance_add]
  exact feed_collecting calls _ [] (collecting_reset s channel) (by decide) hlong hpass

/-- A file whose content is given: the header the checks want, and the content, with everything
past the sixteenth byte enciphered. -/
def encryptedImage (md5rc4key : ℕ → UInt8) (key fmt : UInt8) (content : List UInt8) :
    List UInt8 :=
  ((List.range 15).map (headerByte key) ++ [key]) ++
    crypt rc4Next (advance rc4Next (rc4SetKey 16 md5rc4key) (key.toNat + 3))
      (fmt :: (List.range 8).map (additionalByte fmt) ++ content)

section EncryptedImage

variable (md5rc4key : ℕ → UInt8) (key fmt : UInt8) (content : List UInt8)

theorem length_encryptedImage :
    (encryptedImage md5rc4key key fmt content).length = 25 + content.length := by
  simp only [encryptedImage, List.length_append, List.length_map, List.length_range,
    List.length_cons, List.length_nil, length_crypt]
  omega

theorem getD_encryptedImage {i : ℕ} (hi : i < 16) :
    (encryptedImage md5rc4key key fmt content).getD i 0 =
      ((List.range 15).map (headerByte key) ++ [key]).getD i 0 := by
  refine List.getD_append _ _ _ _ ?_
  rw [List.length_append, List.length_map, List.length_range]
  exact hi

theorem drop_sixteen_encryptedImage :
    (encryptedImage md5rc4key key fmt content).drop 16 =
      crypt rc4Next (advance rc4Next (rc4SetKey 16 md5rc4key) (key.toNat + 3))
        (fmt :: (List.range 8).map (additionalByte fmt) ++ content) := by
  refine List.drop_left' ?_
  rw [List.length_append, List.length_map, List.length_range]
  rfl

/-- Past the header stands the enciphered content. -/
theorem drop_header_encryptedImage :
    (encryptedImage md5rc4key key fmt content).drop 25 =
      crypt rc4Next (advance rc4Next (rc4SetKey 16 md5rc4key) (key.toNat + 3 + 9)) content := by
  have hlength : (fmt :: (List.range 8).map (additionalByte fmt)).length = 9 := by
    rw [List.length_cons, List.length_map, List.length_range]
  rw [show 25 = 16 + 9 from rfl, ← List.drop_drop, drop_sixteen_encryptedImage, crypt_append,
    List.drop_left' ((length_crypt _ _ _).trans hlength), hlength, advance_add]

/-- Deciphering the tail of the header gives back what was enciphered. -/
theorem headerTail_encryptedImage :
    headerTail md5rc4key (encryptedImage md5rc4key key fmt content) =
      fmt :: (List.range 8).map (additionalByte fmt) := by
  have hkey : (encryptedImage md5rc4key key fmt content).getD 15 0 = key :=
    getD_encryptedImage md5rc4key key fmt content (by decide)
  rw [headerTail, headerCipher, hkey, drop_sixteen_encryptedImage, crypt_append, List.take_left',
    crypt_crypt]
  rw [length_crypt]
  rfl

/-- Every content has an image that the function accepts. -/
theorem passesHeaderChecks_encryptedImage :
    PassesHeaderChecks md5rc4key (encryptedImage md5rc4key key fmt content) where
  header := by
    intro i hi
    rw [getD_encryptedImage md5rc4key key fmt content (by decide : 15 < 16),
      getD_encryptedImage md5rc4key key fmt content (by omega), List.getD_append]
    · rw [List.getD_eq_getElem?_getD, List.getElem?_map, List.getElem?_range hi]
      rfl
    · rwa [List.length_map, List.length_range]
  additional := by
    intro i hi
    rw [headerTail_encryptedImage, List.getD_cons_succ, List.getD_eq_getElem?_getD,
      List.getElem?_map, List.getElem?_range hi]
    rfl

end EncryptedImage

/-- A box with a key. -/
def keyedBox : HolktvStb where
  md5rc4key := fun i ↦ UInt8.ofNat (29 * i + 3)
  newFile := fun _ ↦ false
  holIdx := fun _ ↦ 0
  rc4key := fun _ ↦ rc4SetKey 16 fun _ ↦ 0
  fmt := fun _ ↦ 0
  mem := fun _ ↦ 0

/-- The start of a film, enciphered. -/
def filmImage : List UInt8 :=
  encryptedImage keyedBox.md5rc4key 200 7 [0x00, 0x00, 0x01, 0xba, 0x21, 0x00]

/-- The film in three chunks, two of them within the header. -/
def filmCalls : List ChunkCall :=
  [⟨filmImage.take 10, fun _ ↦ 0x55⟩, ⟨(filmImage.drop 10).take 10, fun _ ↦ 0xaa⟩,
    ⟨filmImage.drop 20, fun _ ↦ 0⟩]

/-- Fed in these chunks to the public channel, the film comes out as it was. -/
theorem decrypt_chunks_film :
    filmCalls.flatMap (·.chunk) = filmImage ∧ 25 ≤ filmImage.length ∧
      PassesHeaderChecks keyedBox.md5rc4key filmImage ∧
      (feed (hktvGenericDecrypt keyedBox none 0 4).1 4 filmCalls).flatMap (·.2) =
        [0x00, 0x00, 0x01, 0xba, 0x21, 0x00] := by
  have hchunks : filmCalls.flatMap (·.chunk) = filmImage := by
    have hrest : filmImage.drop 20 = (filmImage.drop 10).drop 10 := by rw [List.drop_drop]
    simp only [filmCalls, List.flatMap_cons, List.flatMap_nil, List.append_nil, hrest,
      List.take_append_drop]
  have hlong : 25 ≤ filmImage.length := by
    rw [filmImage, length_encryptedImage]
    decide
  have hpass := passesHeaderChecks_encryptedImage keyedBox.md5rc4key 200 7
    [0x00, 0x00, 0x01, 0xba, 0x21, 0x00]
  have hkey : filmImage.getD 15 0 = 200 :=
    getD_encryptedImage keyedBox.md5rc4key 200 7 _ (by decide)
  refine ⟨hchunks, hlong, hpass, ?_⟩
  rw [(decrypt_chunks keyedBox 4 filmImage filmCalls hchunks hlong hpass).2, hkey, filmImage,
    drop_header_encryptedImage, crypt_crypt]

end Katmai.Holktv
