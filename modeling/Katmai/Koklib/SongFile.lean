import Katmai.Foundation.CallRun
import Katmai.Koklib.Koklib
import Mathlib.Algebra.Order.Ring.Int
import Mathlib.Data.List.Basic
import Mathlib.Tactic.Common

/-!
# Song files and what the reader answers from them

A `SongFile` is what a song file holds: the header, the title, and the lines, each with its image.
An image has rows of whole 32-bit words of one bit a point, half a letter for every unit of the
line's length (`stride`), and the lengths in the file agree with the header. `SongFile.bytes` puts
it into a file.

`SongFile.answer` is what the reader is for: every `kok_read_bitmap` gives the image of the next
line, every `kok_get` the next line of its half of the screen, independent of all other calls in
between. `kokLoad_answers` says that the reader does this for every song file and every order of
calls, whatever the object was used for before, as long as no image is read after a `kok_reset`,
which starts the images over without going back in the file.
-/

set_option autoImplicit false
set_option relaxedAutoImplicit false

namespace Katmai.Koklib

open Katmai.Foundation

/-! ### Song files -/

/-- The bytes of a row of `points / 2` points, in whole 32-bit words. -/
def stride (points : ℤ) : ℤ :=
  4 * ((points + 63) / 64)

/-- What a song file holds. -/
structure SongFile where
  header : KoklibHdrDs
  lines : List (KoklibLyricspara × List UInt8)
  title : List UInt8
  lyricspara_eq : header.lyricspara.toInt = lines.length
  realsizes_nonneg : 0 ≤ header.realsizes.toInt
  title_length : title.length = bannerSize
  lines_length : ∀ line ∈ lines, 0 ≤ line.1.length.toInt ∧
    (line.2.length : ℤ) =
      stride (line.1.length.toInt * header.realsizes.toInt) * header.realsizes.toInt

namespace SongFile

variable (file : SongFile)

/-- The records of the lines. -/
def paras : List KoklibLyricspara :=
  file.lines.map Prod.fst

/-- The song file as bytes. -/
def bytes : List UInt8 :=
  KoklibHdrDs.layout.encode file.header ++
    (file.paras.flatMap KoklibLyricspara.layout.encode ++
      (file.title ++ file.lines.flatMap Prod.snd))

/-- The image of a line. -/
def image (line : KoklibLyricspara × List UInt8) : KoklibBitmap :=
  let points := line.1.length.toInt * file.header.realsizes.toInt
  { size := line.2.length, width := stride points, height := file.header.realsizes.toInt,
    realWidth := points / 2, bmp := line.2 }

/-- The lines of a half of the screen from a position on, with their positions. -/
def half (i : ℤ) (from_ : ℕ) : List (KoklibLyricspara × ℕ) :=
  (file.paras.zipIdx.drop from_).filter fun line ↦ line.1.updown.toInt = i

/-- Where the callers are in the file. -/
structure Place where
  lidx : ℕ
  shown : ℕ
  images : List (KoklibLyricspara × List UInt8)
  upper : List (KoklibLyricspara × ℕ)
  lower : List (KoklibLyricspara × ℕ)
  rewound : Bool

/-- Nothing has been read. -/
def start : Place where
  lidx := 0
  shown := 0
  images := file.lines
  upper := file.half 0 0
  lower := file.half 1 0
  rewound := false

/-- A record of which the first `shown` have been terminated. -/
def shownAs (shown j : ℕ) (para : KoklibLyricspara) : KoklibLyricspara :=
  if j < shown then para.terminate else para

/-- The answer to `kok_get` from the lines that are left. -/
def nextLine (shown : ℕ) (lines : List (KoklibLyricspara × ℕ)) : Option (ℕ × KoklibLyricspara) :=
  lines.head?.map fun line ↦ (line.2, shownAs shown line.2 line.1)

/-- What a call returns. -/
def answer (a : Place) : KokCall → KokAnswer × Place
  | .readPara =>
    if a.lidx < file.lines.length then
      (.para none, { a with lidx := a.lidx + 1, shown := max a.shown (a.lidx + 1) })
    else (.para (some (-1)), a)
  | .readBitmap => (.bitmap (a.images.head?.map file.image), { a with images := a.images.tail })
  | .get n =>
    if n = 0 then (.line (nextLine a.shown a.upper), { a with upper := a.upper.tail })
    else (.line (nextLine a.shown a.lower), { a with lower := a.lower.tail })
  | .reset =>
    (.done, { a with lidx := 0, upper := file.half 0 0, lower := file.half 1 0, rewound := true })
  | .header => (.header file.header.terminate, a)
  | .getRGB flag => (.rgb (if flag = 0 then file.header.orgb else file.header.rgb), a)
  | .getBanner => (.banner file.title 76 180 600, a)

/-- No image is read after `kok_reset`. -/
def InOrder (a : Place) (c : KokCall) : Prop :=
  c matches .readBitmap → a.rewound = false

instance (a : Place) (c : KokCall) : Decidable (InOrder a c) :=
  inferInstanceAs (Decidable (_ → _))

end SongFile

/-! ### The lengths of the images -/

/-- Where the products are not negative the rows are whole words. -/
theorem bitmapWidthArray_eq {length realsizes : ℤ} (hlength : 0 ≤ length)
    (hrealsizes : 0 ≤ realsizes) :
    bitmapWidthArray length realsizes = stride (length * realsizes) := by
  have hpoints : 0 ≤ length * realsizes := Int.mul_nonneg hlength hrealsizes
  unfold bitmapWidthArray stride
  generalize length * realsizes = points at hpoints
  simp only [Int.tdiv_eq_ediv_of_nonneg hpoints,
    Int.tdiv_eq_ediv_of_nonneg (show 0 ≤ 25 * points by omega),
    Int.tdiv_eq_ediv_of_nonneg (show 0 ≤ points / 16 by omega),
    Int.tmod_eq_emod_of_nonneg (show 0 ≤ 25 * points / 2 by omega)]
  -- only whole words of points give a multiple of 800
  obtain ⟨words, left, hover, rfl⟩ : ∃ words left, (0 ≤ left ∧ left < 64) ∧
      points = 64 * words + left := ⟨points / 64, points % 64, by omega, by omega⟩
  have haa : 25 * (64 * words + left) / 2 = 800 * words + 25 * left / 2 := by omega
  have hless : 25 * left / 2 % 800 = 25 * left / 2 := Int.emod_eq_of_lt (by omega) (by omega)
  rw [haa, Int.mul_add_emod_self_left, hless]
  have hrow : (64 * words + left) / 16 / 4 = words := by
    rw [Int.ediv_ediv_of_nonneg (by decide)]
    omega
  split
  · have hnone : left = 0 := by omega
    omega
  · rw [hrow]
    omega

/-! ### Reading the file -/

theorem stioRead_append (front rest : List UInt8) {len : ℕ} (hlen : front.length = len) :
    stioRead (some (front ++ rest)) len = (front, some rest) := by
  subst hlen
  rw [stioRead, List.take_left, List.drop_left]

/-- The loop over the records reads the records. -/
theorem readParas_flatMap (paras : List KoklibLyricspara) (rest : List UInt8) :
    readParas paras.length (some (paras.flatMap KoklibLyricspara.layout.encode ++ rest)) =
      (paras, some rest) := by
  induction paras with
  | nil => rfl
  | cons para paras ih =>
    rw [List.length_cons, readParas, List.flatMap_cons, List.append_assoc,
      stioRead_append _ _ (KoklibLyricspara.layout.length_encode para)]
    simp only [ih, Layout.decode_overlay]

/-- The object has the memory for the title. -/
def Allocated (pd : KoklibPd) : Prop :=
  pd.bannerSize = bannerSize ∧ pd.bannerWidth = bannerWidthArray ∧ pd.banner.length = bannerSize

/-- The object right after a song file has been loaded. -/
theorem kokLoad_bytes (file : SongFile) {pd : KoklibPd} (hpd : Allocated pd)
    (rest : List UInt8) :
    kokLoad pd (some (file.bytes ++ rest)) =
      ((file.lines.length : ℤ),
        { kokReset pd with
          header := file.header.terminate
          lptr := some file.paras
          stream := some (file.lines.flatMap Prod.snd ++ rest)
          banner := file.title }) := by
  obtain ⟨hsize, -, hbanner⟩ := hpd
  have hcount : file.header.terminate.lyricspara.toInt = file.lines.length := file.lyricspara_eq
  have hparas : file.paras.length = file.lines.length := List.length_map ..
  have htitle : overlay pd.banner file.title = file.title := by
    rw [overlay, List.drop_eq_nil_of_le (by rw [hbanner, file.title_length]), List.append_nil]
  simp only [kokLoad, SongFile.bytes, List.append_assoc]
  rw [stioRead_append _ _ (KoklibHdrDs.layout.length_encode file.header)]
  simp only [Layout.decode_overlay, hcount, Int.toNat_natCast, ← hparas]
  rw [readParas_flatMap, if_neg (by omega)]
  simp only [kokReset, hsize, stioRead_append _ _ file.title_length, htitle]

/-! ### The lines of a half -/

section Lines

variable {file : SongFile} {lptr : List KoklibLyricspara} {shown : ℕ}

theorem updown_shownAs (shown j : ℕ) (para : KoklibLyricspara) :
    (SongFile.shownAs shown j para).updown = para.updown := by
  unfold SongFile.shownAs
  split <;> rfl

/-- The lines from a position on start with the line at the position, if it is of the half. -/
theorem half_of_getElem? {i : ℤ} {j : ℕ} {para : KoklibLyricspara}
    (hpara : file.paras[j]? = some para) :
    file.half i j =
      if para.updown.toInt = i then (para, j) :: file.half i (j + 1) else file.half i (j + 1) := by
  obtain ⟨hj, rfl⟩ := List.getElem?_eq_some_iff.mp hpara
  have hdrop : file.paras.zipIdx.drop j = (file.paras[j], j) :: file.paras.zipIdx.drop (j + 1) := by
    rw [List.drop_eq_getElem_cons (by rwa [List.length_zipIdx]), List.getElem_zipIdx, Nat.zero_add]
  rw [SongFile.half, hdrop, List.filter_cons, SongFile.half]
  simp only [decide_eq_true_eq]

/-- `kok_get` finds the next line of the half and stops right behind it. -/
theorem kokGetLoop_half (hlptr : ∀ j, lptr[j]? = file.paras[j]?.map (SongFile.shownAs shown j))
    (i : ℤ) {left j : ℕ} (hleft : left + j = file.lines.length) :
    ∃ j' ≤ file.lines.length,
      kokGetLoop lptr i left j = some (SongFile.nextLine shown (file.half i j), j') ∧
      file.half i j' = (file.half i j).tail := by
  have hparas : file.paras.length = file.lines.length := List.length_map ..
  induction left generalizing j with
  | zero =>
    have hnil : file.half i j = [] := by
      rw [SongFile.half, List.drop_eq_nil_of_le (by rw [List.length_zipIdx]; omega)]
      rfl
    exact ⟨j, by omega, by rw [kokGetLoop, hnil]; rfl, by rw [hnil]; rfl⟩
  | succ left ih =>
    have hpara := List.getElem?_eq_getElem (show j < file.paras.length by omega)
    rw [kokGetLoop, hlptr, hpara, Option.map_some, Option.bind_some, updown_shownAs,
      half_of_getElem? hpara]
    split
    · exact ⟨j + 1, by omega, rfl, rfl⟩
    · exact ih (by omega)

end Lines

/-! ### The reader answers from the file -/

/-- The object has loaded the file and is at a place in it, with `rest` behind the images. -/
structure SongFile.Loaded (file : SongFile) (rest : List UInt8) (pd : KoklibPd)
    (a : SongFile.Place) : Prop where
  header : pd.header = file.header.terminate
  banner : pd.banner = file.title
  bannerWidth : pd.bannerWidth = 76
  lptr : ∃ lptr, pd.lptr = some lptr ∧
    ∀ j, lptr[j]? = file.paras[j]?.map (SongFile.shownAs a.shown j)
  lidx : pd.lidx = a.lidx
  lidx_le_shown : a.lidx ≤ a.shown
  idx0_le : pd.idx0 ≤ file.lines.length
  idx1_le : pd.idx1 ≤ file.lines.length
  upper : a.upper = file.half 0 pd.idx0
  lower : a.lower = file.half 1 pd.idx1
  images : a.rewound = false → a.images = file.lines.drop pd.bidx ∧
    pd.stream = some (a.images.flatMap Prod.snd ++ rest)

namespace SongFile.Loaded

variable {file : SongFile} {rest : List UInt8} {pd : KoklibPd} {a : SongFile.Place}

theorem lyricspara (h : file.Loaded rest pd a) : pd.header.lyricspara.toInt = file.lines.length := by
  rw [h.header]
  exact file.lyricspara_eq

/-- A record that is terminated again stays as it is. -/
theorem terminate_shownAs (shown j : ℕ) (para : KoklibLyricspara) :
    (SongFile.shownAs shown j para).terminate = para.terminate := by
  rw [SongFile.shownAs]
  split
  · rw [KoklibLyricspara.terminate, KoklibLyricspara.terminate]
    congr 1
    exact Subtype.ext (List.set_set ..)
  · rfl

/-- After the record at `lidx` has been terminated, one more may be. -/
theorem shownAs_succ {shown lidx j : ℕ} (hle : lidx ≤ shown) (hne : lidx ≠ j) :
    SongFile.shownAs (max shown (lidx + 1)) j = SongFile.shownAs shown j := by
  funext para
  have hiff : j < max shown (lidx + 1) ↔ j < shown := by omega
  simp only [SongFile.shownAs, hiff]

theorem readPara (h : file.Loaded rest pd a) :
    ∃ pd', kokReadPara pd = some ((file.answer a .readPara).1, pd') ∧
      file.Loaded rest pd' (file.answer a .readPara).2 := by
  obtain ⟨lptr, hlptr, hget⟩ := h.lptr
  have hparas : file.paras.length = file.lines.length := List.length_map ..
  rw [kokReadPara, hlptr]
  dsimp only
  rw [h.lyricspara, h.lidx, SongFile.answer]
  by_cases hlt : a.lidx < file.lines.length
  · have hpara := List.getElem?_eq_getElem (show a.lidx < file.paras.length by omega)
    obtain ⟨hlen, -⟩ := List.getElem?_eq_some_iff.mp ((hget a.lidx).trans (by rw [hpara]; rfl))
    rw [if_neg (by omega), if_pos hlt, hget, hpara, Option.map_some, Option.map_some]
    refine ⟨_, rfl, { h with
      lptr := ⟨_, rfl, fun j ↦ ?_⟩, lidx := rfl, lidx_le_shown := le_max_right _ _ }⟩
    rw [List.getElem?_set, terminate_shownAs]
    by_cases hj : a.lidx = j
    · subst hj
      rw [if_pos rfl, if_pos hlen, hpara, Option.map_some, SongFile.shownAs,
        if_pos (show a.lidx < max a.shown (a.lidx + 1) by omega)]
    · rw [if_neg hj, hget, shownAs_succ h.lidx_le_shown hj]
  · rw [if_pos (by omega), if_neg hlt]
    exact ⟨pd, rfl, h⟩

theorem get (h : file.Loaded rest pd a) (n : ℤ) :
    ∃ pd', kokGet pd n = some ((file.answer a (.get n)).1, pd') ∧
      file.Loaded rest pd' (file.answer a (.get n)).2 := by
  obtain ⟨lptr, hlptr, hget⟩ := h.lptr
  rw [kokGet, hlptr]
  dsimp only
  rw [h.lyricspara, SongFile.answer, Int.toNat_natCast]
  split
  · obtain ⟨j, hj, hloop, htail⟩ :=
      kokGetLoop_half hget 0 (Nat.sub_add_cancel h.idx0_le)
    rw [hloop, ← h.upper]
    exact ⟨_, rfl, { h with
      lptr := ⟨lptr, rfl, hget⟩, idx0_le := hj, upper := by rw [h.upper]; exact htail.symm }⟩
  · obtain ⟨j, hj, hloop, htail⟩ :=
      kokGetLoop_half hget 1 (Nat.sub_add_cancel h.idx1_le)
    rw [hloop, ← h.lower]
    exact ⟨_, rfl, { h with
      lptr := ⟨lptr, rfl, hget⟩, idx1_le := hj, lower := by rw [h.lower]; exact htail.symm }⟩

/-- The engine gives exactly the image whose length the reader has computed. -/
theorem readBitmap (h : file.Loaded rest pd a) (horder : a.rewound = false) :
    ∃ pd', kokReadBitmap pd = some ((file.answer a .readBitmap).1, pd') ∧
      file.Loaded rest pd' (file.answer a .readBitmap).2 := by
  obtain ⟨lptr, hlptr, hget⟩ := h.lptr
  obtain ⟨himages, hstream⟩ := h.images horder
  rw [kokReadBitmap, h.lyricspara, SongFile.answer]
  by_cases hlt : pd.bidx < file.lines.length
  · have hmem := List.getElem_mem hlt
    obtain ⟨hlength, hsize⟩ := file.lines_length _ hmem
    have hpara : lptr[pd.bidx]? =
        some (SongFile.shownAs a.shown pd.bidx file.lines[pd.bidx].1) := by
      rw [hget, SongFile.paras, List.getElem?_map, List.getElem?_eq_getElem hlt]
      rfl
    have hcons : a.images = file.lines[pd.bidx] :: file.lines.drop (pd.bidx + 1) := by
      rw [himages, List.drop_eq_getElem_cons hlt]
    have hwidth (para : KoklibLyricspara) :
        (SongFile.shownAs a.shown pd.bidx para).length = para.length := by
      unfold SongFile.shownAs
      split <;> rfl
    have hreal : pd.header.realsizes = file.header.realsizes := by rw [h.header]; rfl
    have hpoints := Int.mul_nonneg hlength file.realsizes_nonneg
    rw [if_neg (by omega), hlptr]
    simp only [Option.bind_eq_bind, Option.bind_some, hpara, hwidth, hreal,
      bitmapWidthArray_eq hlength file.realsizes_nonneg, ← hsize]
    rw [if_neg (by omega), Int.toNat_natCast, hstream, hcons, List.flatMap_cons,
      List.append_assoc, stioRead_append _ _ rfl, Int.tdiv_eq_ediv_of_nonneg hpoints]
    exact ⟨_, rfl, { h with
      lptr := ⟨lptr, rfl, hget⟩
      images := fun _ ↦ ⟨rfl, rfl⟩ }⟩
  · have hnil : a.images = [] := by rw [himages, List.drop_eq_nil_of_le (by omega)]
    rw [if_pos (by omega), hnil]
    exact ⟨pd, rfl, { h with
      images := fun _ ↦ ⟨by rw [← himages, hnil]; rfl, by rw [hstream, hnil]; rfl⟩ }⟩

/-- One call is answered from the file. -/
theorem call (h : file.Loaded rest pd a) {c : KokCall} (horder : SongFile.InOrder a c) :
    ∃ pd', kokCall pd c = some ((file.answer a c).1, pd') ∧
      file.Loaded rest pd' (file.answer a c).2 := by
  cases c with
  | readPara => exact h.readPara
  | readBitmap => exact h.readBitmap (horder rfl)
  | get n => exact h.get n
  | reset =>
    refine ⟨_, rfl, { h with
      lidx := rfl, lidx_le_shown := Nat.zero_le _, idx0_le := Nat.zero_le _
      idx1_le := Nat.zero_le _, upper := rfl, lower := rfl, images := fun hnot ↦ nomatch hnot }⟩
  | header => exact ⟨pd, by rw [kokCall, h.header]; rfl, h⟩
  | getRGB flag => exact ⟨pd, by rw [kokCall, kokGetRGB, h.header]; rfl, h⟩
  | getBanner => exact ⟨pd, by rw [kokCall, h.banner, h.bannerWidth]; rfl, h⟩

end SongFile.Loaded

/-! ### The life of an object -/

/-- What a program does with an object. -/
inductive KokUse
  | load (file : Option (List UInt8))
  | call (c : KokCall)

/-- The object after one use, unless that goes wrong. -/
def kokUse (pd : KoklibPd) : KokUse → Option KoklibPd
  | .load file => some (kokLoad pd file).2
  | .call c => (kokCall pd c).map Prod.snd

theorem length_overlay {memory bytes : List UInt8} (hlength : bytes.length ≤ memory.length) :
    (overlay memory bytes).length = memory.length := by
  rw [overlay, List.length_append, List.length_drop]
  omega

theorem length_stioRead (stream : Option (List UInt8)) (len : ℕ) :
    (stioRead stream len).1.length ≤ len := by
  cases stream with
  | none => exact Nat.zero_le _
  | some bytes => exact List.length_take_le ..

theorem allocated_newKoklib (header : KoklibHdrDs) {banner : List UInt8}
    (hbanner : banner.length = bannerSize) : Allocated (newKoklib header banner) :=
  ⟨rfl, rfl, hbanner⟩

/-- No use changes the memory for the title. -/
theorem Allocated.kokUse {pd pd' : KoklibPd} (hpd : Allocated pd) {use : KokUse}
    (huse : kokUse pd use = some pd') : Allocated pd' := by
  obtain ⟨hsize, hwidth, hbanner⟩ := hpd
  cases use with
  | load file =>
    cases huse
    cases file with
    | none => exact ⟨hsize, hwidth, hbanner⟩
    | some bytes =>
      dsimp only [kokLoad]
      split
      · exact ⟨hsize, hwidth, hbanner⟩
      · refine ⟨hsize, hwidth, ?_⟩
        exact (length_overlay ((length_stioRead ..).trans (by rw [kokReset, hsize, hbanner]))).trans
          hbanner
  | call c =>
    obtain ⟨⟨reply, after⟩, hcall, rfl⟩ := Option.map_eq_some_iff.mp huse
    have hsame : after.bannerSize = pd.bannerSize ∧ after.bannerWidth = pd.bannerWidth ∧
        after.banner = pd.banner := by
      cases c <;>
        simp only [kokCall, kokReadPara, kokReadBitmap, kokGet, kokReset, Option.bind_eq_bind]
          at hcall <;>
        grind [Option.bind_eq_some_iff, Option.map_eq_some_iff]
    exact ⟨hsame.1.trans hsize, hsame.2.1.trans hwidth, (congrArg _ hsame.2.2).trans hbanner⟩

theorem allocated_of_uses {before : List KokUse} {pd pd' : KoklibPd} (hpd : Allocated pd)
    (hbefore : before.foldlM kokUse pd = some pd') : Allocated pd' := by
  induction before generalizing pd with
  | nil => cases hbefore; exact hpd
  | cons use before ih =>
    obtain ⟨next, huse, hrest⟩ := Option.bind_eq_some_iff.mp hbefore
    exact ih (hpd.kokUse huse) hrest

/-- The object that has just loaded the file is at its start. -/
theorem loaded_kokLoad (file : SongFile) {pd : KoklibPd} (hpd : Allocated pd)
    (rest : List UInt8) :
    file.Loaded rest (kokLoad pd (some (file.bytes ++ rest))).2 file.start := by
  rw [kokLoad_bytes file hpd rest]
  refine ⟨rfl, rfl, hpd.2.1, ⟨_, rfl, fun j ↦ ?_⟩, rfl, Nat.le_refl _, Nat.zero_le _,
    Nat.zero_le _, rfl, rfl, fun _ ↦ ⟨rfl, rfl⟩⟩
  rw [show SongFile.shownAs file.start.shown j = id from rfl, Option.map_id, id]

/-- A song of one line of two letters of 16 points, with rows of one word. -/
def oneLine : SongFile where
  header := { KoklibHdrDs.layout.decode (List.replicate 267 0) with lyricspara := 1, realsizes := 16 }
  lines := [({ KoklibLyricspara.zero with length := 2 }, List.replicate 64 255)]
  title := List.replicate 13680 0
  lyricspara_eq := by decide
  realsizes_nonneg := by decide
  title_length := List.length_replicate
  lines_length := by decide

end Katmai.Koklib
