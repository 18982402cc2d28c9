import Katmai.Holktv.DecryptChunking
import Katmai.StioEngine.ReadPlugin

/-!
# Read errors and the decryption plugin

A box sets `hktv_generic_decrypt` as the read plugin of its engines. A read that has failed, or has
met the end of the file, should not come near it: it should not be called with a negative length,
its cipher should stay where it is, and the caller should get nothing (`ReadErrorsContained`).

`pre_read` sees to that. `pub_read` calls the plugin with whatever the backend has returned. At the
end of the file this does no harm. A failed read makes the plugin copy, or decipher, as many bytes
as the negative length is when it is taken for a size, and runs off the buffer. So errors are
contained exactly when the backend's result is not negative (`readErrorsContained_iff`).
-/

set_option autoImplicit false
set_option relaxedAutoImplicit false

namespace Katmai.Holktv

open Katmai.Foundation Katmai.Misclib Katmai.StioEngine

/-! ### The plugin -/

/-- A memory in which the caller's buffer holds `buffer`. -/
def withBuffer (mem : Pointer Region → UInt8) (buffer : ℕ → UInt8) : Pointer Region → UInt8
  | ⟨.buffer, offset⟩ => buffer offset
  | p => mem p

/-- `hktv_generic_decrypt` as a read plugin. A negative length is given to `memcpy` or to `RC4` as a
size, which is more than there is memory. -/
def hktvPlugin (channel : Fin 5) : ReadPlugin HolktvStb where
  reset := fun s ↦ (hktvGenericDecrypt s none 0 channel).1
  call := fun s buffer len ↦
    if len < 0 then none
    else
      let r := hktvGenericDecrypt { s with mem := withBuffer s.mem buffer } (some ⟨.buffer, 0⟩)
        len.toNat channel
      some ⟨r.2, fun j ↦ r.1.mem ⟨.buffer, j⟩, r.1⟩

/-- The states of a box whose channel has been reset, as opening a file does. -/
inductive Opened (channel : Fin 5) : HolktvStb → Prop
  | reset (s : HolktvStb) : Opened channel ((hktvPlugin channel).reset s)
  | call {s : HolktvStb} (other : Fin 5) (buffer : ℕ → UInt8) (len : ℤ)
      (out : PluginOutput HolktvStb) (hs : Opened channel s)
      (hcall : (hktvPlugin other).call s buffer len = some out) : Opened channel out.state
  | other {s : HolktvStb} (other : Fin 5) (hs : Opened channel s) :
      Opened channel ((hktvPlugin other).reset s)

/-- A new file's header is not complete. -/
def HeaderOpen (channel : Fin 5) (s : HolktvStb) : Prop :=
  s.newFile channel = true → s.holIdx channel < 25

section HeaderOpen

variable {channel : Fin 5} {s : HolktvStb}

/-- After the checks the flags of the channels are those of the completed header. -/
theorem decryptFirst_flags (other : Fin 5) (buffer : Pointer Region) (len : ℕ) :
    (decryptFirst s buffer len other).1.newFile = (completeHeader s buffer other).newFile ∧
      (decryptFirst s buffer len other).1.holIdx = (completeHeader s buffer other).holIdx := by
  unfold decryptFirst
  dsimp only
  split_ifs <;> exact ⟨rfl, rfl⟩

/-- Completing the header of a channel leaves the others alone. -/
theorem completeHeader_flags_of_ne {other : Fin 5} (hne : channel ≠ other)
    (buffer : Pointer Region) :
    (completeHeader s buffer other).newFile channel = s.newFile channel ∧
      (completeHeader s buffer other).holIdx channel = s.holIdx channel := by
  unfold completeHeader
  dsimp only
  split_ifs
  · exact ⟨Function.update_of_ne hne _ _, Function.update_of_ne hne _ _⟩
  · exact ⟨Function.update_of_ne hne _ _, rfl⟩

theorem headerOpen_reset (other : Fin 5) (hs : channel ≠ other → HeaderOpen channel s) :
    HeaderOpen channel ((hktvPlugin other).reset s) := by
  intro hnew
  by_cases hother : channel = other
  · subst hother
    exact lt_of_eq_of_lt (Function.update_self _ _ _) (by decide)
  · have hnew' : s.newFile channel = true := (Function.update_of_ne hother _ _).symm.trans hnew
    exact lt_of_eq_of_lt (Function.update_of_ne hother _ _) (hs hother hnew')

/-- A call on a buffer keeps a new file's header open. -/
theorem HeaderOpen.decrypt (hs : HeaderOpen channel s) (other : Fin 5) (buffer : Pointer Region)
    (len : ℕ) : HeaderOpen channel (hktvGenericDecrypt s (some buffer) len other).1 := by
  unfold hktvGenericDecrypt
  dsimp only
  split_ifs with hstream hshort
  · exact hs
  · intro hnew
    by_cases hother : channel = other
    · subst hother
      refine lt_of_eq_of_lt (Function.update_self _ _ _) ?_
      rwa [Nat.add_comm]
    · exact lt_of_eq_of_lt (Function.update_of_ne hother _ _) (hs hnew)
  · intro hnew
    rw [(decryptFirst_flags other buffer len).1] at hnew
    rw [(decryptFirst_flags other buffer len).2]
    by_cases hother : channel = other
    · subst hother
      rw [completeHeader_newFile] at hnew
      exact absurd hnew Bool.false_ne_true
    · rw [(completeHeader_flags_of_ne hother buffer).1] at hnew
      rw [(completeHeader_flags_of_ne hother buffer).2]
      exact hs hnew

/-- An open channel that is new has an open header. -/
theorem Opened.headerOpen (hs : Opened channel s) : HeaderOpen channel s := by
  induction hs with
  | reset s => exact headerOpen_reset channel fun hne ↦ absurd rfl hne
  | @call s other buffer len out hs hcall ih =>
    have ih' : HeaderOpen channel { s with mem := withBuffer s.mem buffer } := ih
    unfold hktvPlugin at hcall
    dsimp only at hcall
    split_ifs at hcall with hneg
    rw [Option.some_inj] at hcall
    subst hcall
    exact ih'.decrypt other _ _
  | other other hs ih => exact headerOpen_reset other fun _ ↦ ih

/-- A call on no bytes leaves the cipher of an open header where it is, and returns 0. -/
theorem HeaderOpen.call_zero (hs : HeaderOpen channel s) (buffer : ℕ → UInt8) :
    ∃ out, (hktvPlugin channel).call s buffer 0 = some out ∧ out.rc = 0 ∧
      out.state.rc4key channel = s.rc4key channel := by
  have hcall : (hktvPlugin channel).call s buffer 0 = some
      ⟨(hktvGenericDecrypt { s with mem := withBuffer s.mem buffer } (some ⟨.buffer, 0⟩) 0
        channel).2, fun j ↦ (hktvGenericDecrypt { s with mem := withBuffer s.mem buffer }
        (some ⟨.buffer, 0⟩) 0 channel).1.mem ⟨.buffer, j⟩,
        (hktvGenericDecrypt { s with mem := withBuffer s.mem buffer } (some ⟨.buffer, 0⟩) 0
          channel).1⟩ := by
    change (if (0 : ℤ) < 0 then none else _) = _
    rw [if_neg (Int.lt_irrefl 0)]
    rfl
  refine ⟨_, hcall, ?_⟩
  by_cases hnew : s.newFile channel = false
  · have hstream : hktvGenericDecrypt { s with mem := withBuffer s.mem buffer }
        (some ⟨.buffer, 0⟩) 0 channel = (channelRc4 { s with mem := withBuffer s.mem buffer }
          channel 0 ⟨.buffer, 0⟩ ⟨.buffer, 0⟩, 0) := if_pos hnew
    rw [hstream]
    exact ⟨rfl, channelRc4_rc4key _ _ _ _ _⟩
  · have hopen : 0 + s.holIdx channel < 25 := by
      rw [Nat.zero_add]
      exact hs (Bool.eq_true_of_not_eq_false hnew)
    unfold hktvGenericDecrypt
    dsimp only
    rw [if_neg hnew, if_pos hopen]
    exact ⟨rfl, rfl⟩

end HeaderOpen

/-! ### Reads -/

section Reads

variable {β : Type}

/-- The reads of `pub_read`, an automatic repeat among them, leave the cipher where it is, and an
open channel open. -/
theorem finalRead_plugin (channel : Fin 5) (io : Backend β) (s : PluginEngine HolktvStb β)
    (buffer : ℕ → UInt8) (len : ℕ) (hs : Opened channel s.plugin) :
    Opened channel (s.finalRead io (some (hktvPlugin channel)) buffer len).engine.plugin ∧
      (s.finalRead io (some (hktvPlugin channel)) buffer len).engine.plugin.rc4key =
        s.plugin.rc4key := by
  -- what an automatic repeat leaves of the plugin
  have hreset : ∀ t : PluginEngine HolktvStb β, t.plugin = s.plugin →
      Opened channel (t.pubReset io (some (hktvPlugin channel))).plugin ∧
        (t.pubReset io (some (hktvPlugin channel))).plugin.rc4key = s.plugin.rc4key := by
    intro t ht
    have hkey : t.plugin.rc4key = s.plugin.rc4key := congrArg HolktvStb.rc4key ht
    unfold PluginEngine.pubReset
    dsimp only
    split_ifs
    · exact ⟨.reset t.plugin, hkey⟩
    · exact ⟨ht ▸ hs, hkey⟩
  unfold PluginEngine.finalRead
  dsimp only
  split_ifs
  · exact hreset _ rfl
  · exact hreset _ rfl
  · exact ⟨hs, rfl⟩
  · exact ⟨hs, rfl⟩

/-- At the end of the file the plugin of an open channel is harmless. -/
theorem harmlessAtEnd (channel : Fin 5) (io : Backend β) (s : PluginEngine HolktvStb β)
    (buffer : ℕ → UInt8) (len : ℕ) (hs : Opened channel s.plugin) :
    HarmlessAtEnd (hktvPlugin channel) (fun box ↦ box.rc4key channel) io s buffer len := by
  obtain ⟨hopened, hcipher⟩ := finalRead_plugin channel io s buffer len hs
  obtain ⟨out, hcall, hrc, hkey⟩ := hopened.headerOpen.call_zero
    (s.finalRead io (some (hktvPlugin channel)) buffer len).buffer
  exact ⟨out, hcall, Int.le_of_eq hrc, hkey.trans (congrFun hcipher channel)⟩

/-- On any engine, read errors are kept from any plugin exactly when the final result of the backend
is not negative and the plugin is harmless at the end of the file; and from the decryption of an
open channel exactly when the final result of the backend is not negative. -/
theorem readErrorsContained_iff (channel : Fin 5) (io : Backend β) (s : PluginEngine HolktvStb β)
    (buffer : ℕ → UInt8) (len : ℕ) (hs : Opened channel s.plugin) :
    (∀ (σ γ : Type) (plugin : ReadPlugin σ) (cipher : σ → γ) (t : PluginEngine σ β),
      ReadErrorsContained plugin cipher io t buffer len ↔
        0 ≤ (t.finalRead io (some plugin) buffer len).rc ∧
          ((t.finalRead io (some plugin) buffer len).rc = 0 →
            HarmlessAtEnd plugin cipher io t buffer len)) ∧
      (ReadErrorsContained (hktvPlugin channel) (fun box ↦ box.rc4key channel) io s buffer len ↔
        0 ≤ (s.finalRead io (some (hktvPlugin channel)) buffer len).rc) := by
  refine ⟨fun σ γ plugin cipher t ↦ contained_iff plugin cipher io t buffer len, ?_⟩
  rw [contained_iff]
  exact and_iff_left fun _ ↦ harmlessAtEnd channel io s buffer len hs

/-- An engine that has opened no file, with the decryption of the first channel as its plugin. -/
def closedEngine : PluginEngine HolktvStb (Option OpenFile × (ℕ → ℕ) × (ℕ → ℕ)) where
  backend := (none, fun _ ↦ 0, fun _ ↦ 0)
  fpPos := 0
  repeatCnt := 0
  plugin := (hktvPlugin 0).reset keyedBox

/-- An engine on an empty file. -/
def emptyFileEngine : PluginEngine HolktvStb (Option OpenFile × (ℕ → ℕ) × (ℕ → ℕ)) :=
  { closedEngine with backend :=
      (some ⟨⟨0, by decide, fun _ ↦ 0⟩, 0⟩, fun _ ↦ 0, fun _ ↦ 0) }

/-- At the end of an empty file nothing reaches the plugin. -/
theorem readErrorsContained_iff_empty_file :
    Opened 0 emptyFileEngine.plugin ∧
      ReadErrorsContained (hktvPlugin 0) (fun box ↦ box.rc4key 0) fileBackend emptyFileEngine
        (fun _ ↦ 0) 16 :=
  ⟨.reset keyedBox, (readErrorsContained_iff 0 fileBackend emptyFileEngine (fun _ ↦ 0) 16
    (.reset keyedBox)).2.mpr (by decide)⟩

/-- A read of an engine that has opened no file calls the plugin with the length -1. -/
theorem not_readErrorsContained_closed :
    Opened 0 closedEngine.plugin ∧
      (closedEngine.pubRead fileBackend (some (hktvPlugin 0)) (fun _ ↦ 0) 16).calls = [-1] ∧
      ¬ ReadErrorsContained (hktvPlugin 0) (fun box ↦ box.rc4key 0) fileBackend closedEngine
        (fun _ ↦ 0) 16 := by
  have hcalls : (closedEngine.pubRead fileBackend (some (hktvPlugin 0)) (fun _ ↦ 0) 16).calls =
      [-1] := rfl
  refine ⟨.reset keyedBox, hcalls, fun hcontained ↦ ?_⟩
  have hnonneg := ((contained_iff (hktvPlugin 0) (fun box ↦ box.rc4key 0) fileBackend closedEngine
    (fun _ ↦ 0) 16).mp hcontained).1
  exact absurd hnonneg (by decide)

end Reads

end Katmai.Holktv
