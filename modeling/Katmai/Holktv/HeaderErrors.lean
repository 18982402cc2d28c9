import Katmai.Foundation.CallRun
import Katmai.Holktv.DecryptChunking

/-!
# What follows a header error

A header that fails a check is refused with `-2` or `-3`, and a reader of the channel should get
nothing but errors until the next reset (`ErrorsStick`). `new_file` is cleared before the checks,
though, so that the call after the error takes the channel for one that is past its header: it
deciphers its chunk with whatever cipher the channel has, and returns its length. Errors stick
exactly when the header passes, or when no chunk comes after the one that completes it
(`errorsStick_iff`).
-/

set_option autoImplicit false
set_option relaxedAutoImplicit false

namespace Katmai.Holktv

open Katmai.Foundation Katmai.Misclib

/-! ### The law -/

/-- A call as a call of an object: what it returns and delivers, and the box. -/
def feedCall (channel : Fin 5) (s : HolktvStb) (call : ChunkCall) :
    (ℤ × List UInt8) × HolktvStb :=
  ((feedChunk s channel call).2, (feedChunk s channel call).1)

/-- The call returns a header error. -/
def HeaderError (channel : Fin 5) (s : HolktvStb) (call : ChunkCall) : Prop :=
  (feedChunk s channel call).2.1 = -2 ∨ (feedChunk s channel call).2.1 = -3

/-- The call returns a negative value and leaves the caller's buffer as it is. -/
def Refuses (channel : Fin 5) (s : HolktvStb) (call : ChunkCall) : Prop :=
  (feedChunk s channel call).2.1 < 0 ∧
    ∀ offset, (feedChunk s channel call).1.mem ⟨.buffer, offset⟩ =
      callMemory s.mem call ⟨.buffer, offset⟩

/-- After a header error every later call refuses. -/
def ErrorsStick (channel : Fin 5) : HolktvStb → List ChunkCall → Prop
  | _, [] => True
  | s, call :: later =>
    (HeaderError channel s call →
      Along (feedCall channel) (Refuses channel) (feedChunk s channel call).1 later) ∧
      ErrorsStick channel (feedChunk s channel call).1 later

/-! ### Channels past the header -/

section Steps

variable {s : HolktvStb} {channel : Fin 5} {cipher : Rc4Key} {front : List UInt8}

/-- Past the header no call is refused, and so none is an error. -/
theorem Streaming.not_refused (hs : Streaming s channel cipher) (call : ChunkCall) :
    ¬ (feedChunk s channel call).2.1 < 0 := by
  rw [(feedChunk_streaming call hs).2]
  exact Int.not_lt.mpr (Int.natCast_nonneg _)

theorem HeaderError.neg {call : ChunkCall} (herror : HeaderError channel s call) :
    (feedChunk s channel call).2.1 < 0 := by
  rcases herror with h | h
  · rw [h]
    decide
  · rw [h]
    decide

/-- Past the header there are no errors. -/
theorem Streaming.errorsStick (calls : List ChunkCall) (hs : Streaming s channel cipher) :
    ErrorsStick channel s calls := by
  induction calls generalizing s cipher with
  | nil => exact trivial
  | cons call later ih =>
    refine ⟨fun herror ↦ absurd herror.neg (hs.not_refused call), ?_⟩
    exact ih (feedChunk_streaming call hs).1

/-- Past the header only an empty list of calls is refused throughout. -/
theorem Streaming.along_refuses_iff (calls : List ChunkCall) (hs : Streaming s channel cipher) :
    Along (feedCall channel) (Refuses channel) s calls ↔ calls = [] := by
  cases calls with
  | nil => exact iff_of_true trivial rfl
  | cons call later =>
    exact iff_of_false (fun halong ↦ hs.not_refused call halong.1.1) (List.cons_ne_nil _ _)

/-- A call that completes a header leaves the channel past it, whatever the checks say. -/
theorem decryptFirst_newFile (buffer : Pointer Region) (len : ℕ) :
    (decryptFirst s buffer len channel).1.newFile channel = false := by
  have hnew := completeHeader_newFile s channel buffer
  unfold decryptFirst
  dsimp only
  split_ifs
  · exact hnew
  · exact hnew
  · exact hnew
  · exact hnew

/-- What a call that completes a header returns when it is refused. -/
theorem decryptFirst_eq_of_neg {buffer : Pointer Region} {len : ℕ}
    (hneg : (decryptFirst s buffer len channel).2 < 0) :
    (decryptFirst s buffer len channel).2 = -2 ∨ (decryptFirst s buffer len channel).2 = -3 := by
  unfold decryptFirst at hneg ⊢
  dsimp only at hneg ⊢
  split_ifs at hneg ⊢
  · exact absurd hneg (Int.not_lt.mpr (Int.natCast_nonneg _))
  · exact absurd hneg (Int.lt_irrefl 0)
  · exact .inr rfl
  · exact .inl rfl

/-- The chunk that completes a rejected header is an error, and leaves the channel past the
header. -/
theorem feedChunk_rejected (call : ChunkCall) (hs : Collecting s channel front)
    (hfront : front.length < 25) (hlong : 25 ≤ (front ++ call.chunk).length)
    (hreject : ¬ PassesHeaderChecks s.md5rc4key (front ++ call.chunk)) :
    HeaderError channel s call ∧
      Streaming (feedChunk s channel call).1 channel
        ((feedChunk s channel call).1.rc4key channel) := by
  have hs' := hs.callMemory call
  have hlen : ¬ call.chunk.length + s.holIdx channel < 25 := by
    rw [hs.holIdx]
    rw [List.length_append] at hlong
    omega
  have hcall : hktvGenericDecrypt { s with mem := callMemory s.mem call } (some ⟨.buffer, 0⟩)
      call.chunk.length channel =
        decryptFirst { s with mem := callMemory s.mem call } ⟨.buffer, 0⟩ call.chunk.length
          channel := (if_neg hs.newFile_ne).trans (if_neg hlen)
  have hneg := (decryptFirst_refuses_iff hs' (bytesAt_callMemory call s.mem) hfront hlong).mpr
    hreject
  rw [HeaderError, feedChunk, hcall]
  exact ⟨decryptFirst_eq_of_neg hneg, decryptFirst_newFile _ _, rfl⟩

end Steps

/-! ### Whole files -/

/-- The bytes of all chunks but the last. -/
def bytesBeforeLast (calls : List ChunkCall) : List UInt8 :=
  calls.dropLast.flatMap (·.chunk)

theorem bytesBeforeLast_nil : bytesBeforeLast [] = [] :=
  rfl

theorem bytesBeforeLast_singleton (call : ChunkCall) : bytesBeforeLast [call] = [] :=
  rfl

theorem bytesBeforeLast_cons (call : ChunkCall) {later : List ChunkCall} (hlater : later ≠ []) :
    bytesBeforeLast (call :: later) = call.chunk ++ bytesBeforeLast later := by
  rw [bytesBeforeLast, List.dropLast_cons_of_ne_nil hlater, List.flatMap_cons]
  rfl

/-- The chunks of a file, from wherever in the header the channel stands. -/
theorem errorsStick_collecting_iff {channel : Fin 5} (calls : List ChunkCall) (s : HolktvStb)
    (front : List UInt8) (hs : Collecting s channel front) (hfront : front.length < 25) :
    ErrorsStick channel s calls ↔
      PassesHeaderChecks s.md5rc4key (front ++ calls.flatMap (·.chunk)) ∨
        (front ++ bytesBeforeLast calls).length < 25 := by
  induction calls generalizing s front with
  | nil =>
    refine iff_of_true trivial (.inr ?_)
    rwa [bytesBeforeLast_nil, List.append_nil]
  | cons call later ih =>
    rw [ErrorsStick, List.flatMap_cons, ← List.append_assoc]
    by_cases hshort : call.chunk.length + front.length < 25
    · -- the header is still not complete, and the call is no error
      obtain ⟨hnext, hkey, hout⟩ := feedChunk_short call hs hshort
      have hfront' : (front ++ call.chunk).length < 25 := by
        rw [List.length_append]
        omega
      have hok : ¬ HeaderError channel s call := by
        intro herror
        have hneg := herror.neg
        rw [hout] at hneg
        exact absurd hneg (Int.lt_irrefl 0)
      rw [ih _ _ hnext hfront', hkey, and_iff_right fun herror ↦ absurd herror hok]
      rcases eq_or_ne later [] with rfl | hlater
      · refine or_congr_right (iff_of_true ?_ ?_)
        · rwa [bytesBeforeLast_nil, List.append_nil]
        · rwa [bytesBeforeLast_singleton, List.append_nil]
      · rw [bytesBeforeLast_cons call hlater, ← List.append_assoc front _ (bytesBeforeLast later)]
    · have hcomplete : 25 ≤ (front ++ call.chunk).length := by
        rw [List.length_append]
        omega
      rw [passesHeaderChecks_append s.md5rc4key _ hcomplete]
      by_cases hpass : PassesHeaderChecks s.md5rc4key (front ++ call.chunk)
      · -- an accepted header: the channel streams
        obtain ⟨hnext, hout⟩ := feedChunk_first call hs hfront hcomplete hpass
        refine iff_of_true ⟨fun herror ↦ ?_, hnext.errorsStick later⟩ (.inl hpass)
        have hneg := herror.neg
        rw [hout] at hneg
        exact absurd hneg (Int.not_lt.mpr (Int.natCast_nonneg _))
      · -- a rejected one: the channel streams as well
        obtain ⟨herror, hnext⟩ := feedChunk_rejected call hs hfront hcomplete hpass
        rw [and_iff_left (hnext.errorsStick later), imp_iff_right herror,
          hnext.along_refuses_iff later, or_iff_right hpass]
        rcases eq_or_ne later [] with rfl | hlater
        · refine iff_of_true rfl ?_
          rwa [bytesBeforeLast_singleton, List.append_nil]
        · refine iff_of_false hlater ?_
          rw [bytesBeforeLast_cons call hlater, ← List.append_assoc, List.length_append]
          omega

/-- Whatever the key, the channel, and the chunks in which a file is fed after a reset, a header
error is followed by refusals only exactly when the header passes both checks, or is not complete
before the last chunk. -/
theorem errorsStick_iff (s : HolktvStb) (channel : Fin 5) (calls : List ChunkCall) :
    ErrorsStick channel (hktvGenericDecrypt s none 0 channel).1 calls ↔
      PassesHeaderChecks s.md5rc4key (calls.flatMap (·.chunk)) ∨
        (bytesBeforeLast calls).length < 25 :=
  errorsStick_collecting_iff calls _ [] (collecting_reset s channel) (by decide)

/-- The header of a file of zeros. -/
def zeroHeader : ChunkCall :=
  ⟨List.replicate 25 0, fun _ ↦ 0⟩

/-- A file of zeros in two chunks: the first is refused, and the second is delivered. -/
theorem not_errorsStick_zeros :
    ¬ ErrorsStick 0 (hktvGenericDecrypt keyedBox none 0 0).1
      [zeroHeader, ⟨[0], fun _ ↦ 0⟩] := by
  intro hstick
  have hreject : ¬ PassesHeaderChecks keyedBox.md5rc4key ([] ++ zeroHeader.chunk) :=
    fun hpass ↦ absurd (hpass.header 0 (by decide)) (by decide)
  obtain ⟨herror, hnext⟩ := feedChunk_rejected zeroHeader (collecting_reset keyedBox 0)
    (by decide) (by decide) hreject
  exact List.cons_ne_nil _ _ ((hnext.along_refuses_iff _).mp (hstick.1 herror))

end Katmai.Holktv
