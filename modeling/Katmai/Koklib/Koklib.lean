import Katmai.Foundation.PackedLayout
import Mathlib.Data.List.Basic

/-!
# The reader of song files

`koklib.c`. A song file is a packed header of 267 bytes, a packed record of 158 bytes for each line
of the lyrics, the image of the title and an image for each line, and nothing in the file says where
an image starts or how long it is. `kok_load` reads the header, the records and the title; the
images of the lines are read by `kok_read_bitmap`, one a call, which computes the length of the next
one from the header and the record. `kok_get` finds the next line of the upper or the lower half of
the screen, each half with an index of its own.

The stream engine gives the bytes of the opened file in order, fewer than asked for at the end and
none when it is closed. `char` is signed, and the products with `0.5` are exact in a `double` and
truncated when they are stored.
-/

set_option autoImplicit false
set_option relaxedAutoImplicit false

namespace Katmai.Koklib

open Katmai.Foundation

/-! ### The packed structures -/

/-- `short`, with the low byte first. -/
def shortLayout : Layout (BitVec 16) :=
  Layout.word Layout.byte Layout.byte

/-- `int`, with the low byte first. -/
def intLayout : Layout (BitVec 32) :=
  Layout.word shortLayout shortLayout

/-- `struct koklib_hdr_ds_t` -/
structure KoklibHdrDs where
  version : BitVec 8
  timeoffset : BitVec 16
  lyricsparaNoLead : BitVec 16
  lyricspara : BitVec 16
  realsizes : BitVec 8
  borders : BitVec 8
  song : List.Vector (BitVec 8) 62
  singer : List.Vector (BitVec 8) 32
  chinesepatt : List.Vector (BitVec 8) 50
  englishpatt : List.Vector (BitVec 8) 50
  orgb : List.Vector (BitVec 32) 8
  rgb : List.Vector (BitVec 32) 8
  deriving DecidableEq

/-- `struct koklib_lyricspara_t` -/
structure KoklibLyricspara where
  leadtime : BitVec 8
  sentence : List.Vector (BitVec 8) 25
  length : BitVec 8
  division : BitVec 8
  time : List.Vector (BitVec 32) 25
  jump : List.Vector (BitVec 8) 25
  alignment : BitVec 8
  singer : BitVec 8
  xoffset : BitVec 16
  updown : BitVec 8
  deriving DecidableEq

/-- The fields of the header in order. -/
def KoklibHdrDs.layout : Layout KoklibHdrDs :=
  (Layout.byte.pair <| shortLayout.pair <| shortLayout.pair <| shortLayout.pair <|
    Layout.byte.pair <| Layout.byte.pair <| (Layout.byte.array 62).pair <|
    (Layout.byte.array 32).pair <| (Layout.byte.array 50).pair <| (Layout.byte.array 50).pair <|
    (intLayout.array 8).pair <| intLayout.array 8).map
  { toFun := fun (a, b, c, d, e, f, g, h, i, j, k, l) ↦ ⟨a, b, c, d, e, f, g, h, i, j, k, l⟩
    invFun := fun ⟨a, b, c, d, e, f, g, h, i, j, k, l⟩ ↦ (a, b, c, d, e, f, g, h, i, j, k, l)
    left_inv := fun _ ↦ rfl
    right_inv := fun _ ↦ rfl }

/-- The fields of a record in order. -/
def KoklibLyricspara.layout : Layout KoklibLyricspara :=
  (Layout.byte.pair <| (Layout.byte.array 25).pair <| Layout.byte.pair <| Layout.byte.pair <|
    (intLayout.array 25).pair <| (Layout.byte.array 25).pair <| Layout.byte.pair <|
    Layout.byte.pair <| shortLayout.pair Layout.byte).map
  { toFun := fun (a, b, c, d, e, f, g, h, i, j) ↦ ⟨a, b, c, d, e, f, g, h, i, j⟩
    invFun := fun ⟨a, b, c, d, e, f, g, h, i, j⟩ ↦ (a, b, c, d, e, f, g, h, i, j)
    left_inv := fun _ ↦ rfl
    right_inv := fun _ ↦ rfl }

example : KoklibHdrDs.layout.size = 267 ∧ KoklibLyricspara.layout.size = 158 := ⟨rfl, rfl⟩

/-- An array with a terminator in its last element. -/
def terminated {n : ℕ} (text : List.Vector (BitVec 8) (n + 1)) : List.Vector (BitVec 8) (n + 1) :=
  text.set (Fin.last n) 0

/-- The header after `kok_load` has terminated its texts. -/
def KoklibHdrDs.terminate (header : KoklibHdrDs) : KoklibHdrDs :=
  { header with song := terminated header.song, singer := terminated header.singer }

/-- The record after `kok_read_para` has terminated its sentence. -/
def KoklibLyricspara.terminate (para : KoklibLyricspara) : KoklibLyricspara :=
  { para with sentence := terminated para.sentence }

/-- A record of zero bytes, as `calloc` leaves it. -/
def KoklibLyricspara.zero : KoklibLyricspara :=
  KoklibLyricspara.layout.decode (List.replicate KoklibLyricspara.layout.size 0)

/-! ### The object -/

/-- `struct koklib_pd_t`. `stream` is what the engine has not delivered yet of the open file. -/
structure KoklibPd where
  stream : Option (List UInt8)
  header : KoklibHdrDs
  lptr : Option (List KoklibLyricspara)
  lidx : ℕ
  bidx : ℕ
  idx0 : ℕ
  idx1 : ℕ
  banner : List UInt8
  bannerSize : ℕ
  bannerWidth : ℤ

/-- `KOK_BANNER_IMAGE_WIDTH` -/
def kokBannerImageWidth : ℤ :=
  600

/-- `KOK_BANNER_IMAGE_HEIGHT` -/
def kokBannerImageHeight : ℤ :=
  180

/-- The bytes of a row of the title, as `kok_read_banner` computes them. -/
def bannerWidthArray : ℤ :=
  let aa := kokBannerImageWidth.tdiv 8 * 200
  if aa.tmod 800 = 0 then kokBannerImageWidth.tdiv 8
  else ((kokBannerImageWidth.tdiv 8).tdiv 4 + 1) * 4

/-- The bytes of a row of a line's image, as `kok_read_bitmap` computes them. -/
def bitmapWidthArray (length realsizes : ℤ) : ℤ :=
  let aa := (25 * (length * realsizes)).tdiv 2
  if aa.tmod 800 = 0 then (length * realsizes).tdiv 16
  else (((length * realsizes).tdiv 16).tdiv 4 + 1) * 4

/-- The bytes of the title. -/
def bannerSize : ℕ :=
  (bannerWidthArray * kokBannerImageHeight).toNat

/-- `stio->read (stio, …, len)`: the bytes that are read and the engine after it. -/
def stioRead (stream : Option (List UInt8)) (len : ℕ) : List UInt8 × Option (List UInt8) :=
  match stream with
  | none => ([], none)
  | some bytes => (bytes.take len, some (bytes.drop len))

/-- The loop of `kok_load` over the records. -/
def readParas : ℕ → Option (List UInt8) → List KoklibLyricspara × Option (List UInt8)
  | 0, stream => ([], stream)
  | n + 1, stream =>
    let (bytes, stream) := stioRead stream KoklibLyricspara.layout.size
    let para := KoklibLyricspara.layout.decode
      (overlay (KoklibLyricspara.layout.encode .zero) bytes)
    let (paras, stream) := readParas n stream
    (para :: paras, stream)

/-- `kok_reset` -/
def kokReset (pd : KoklibPd) : KoklibPd :=
  { pd with lidx := 0, bidx := 0, idx0 := 0, idx1 := 0 }

/-- `kok_load`, with the bytes of the file unless it cannot be opened. `calloc` fails for a negative
number of records. -/
def kokLoad (pd : KoklibPd) (file : Option (List UInt8)) : ℤ × KoklibPd :=
  match file with
  | none => (-1, { pd with lptr := none, stream := none })
  | some bytes =>
    let (head, stream) := stioRead (some bytes) KoklibHdrDs.layout.size
    let header := (KoklibHdrDs.layout.decode
      (overlay (KoklibHdrDs.layout.encode pd.header) head)).terminate
    let pd := { kokReset pd with header := header }
    if header.lyricspara.toInt < 0 then (-1, { pd with lptr := none, stream := stream })
    else
      let (paras, stream) := readParas header.lyricspara.toInt.toNat stream
      let (image, stream) := stioRead stream pd.bannerSize
      (header.lyricspara.toInt,
        { pd with lptr := some paras, stream := stream, banner := overlay pd.banner image })

/-- `new_koklib`, with what `malloc` leaves in the header and in the title. -/
def newKoklib (header : KoklibHdrDs) (banner : List UInt8) : KoklibPd where
  stream := none
  header := header
  lptr := none
  lidx := 0
  bidx := 0
  idx0 := 0
  idx1 := 0
  banner := banner
  bannerSize := bannerSize
  bannerWidth := bannerWidthArray

/-! ### The calls -/

/-- `struct koklib_bitmap_t`; `bmp` is as much of its memory as the engine has filled. -/
structure KoklibBitmap where
  size : ℤ
  width : ℤ
  height : ℤ
  realWidth : ℤ
  bmp : List UInt8
  deriving DecidableEq

/-- The calls of the object after `kok_load`. -/
inductive KokCall
  | readPara
  | readBitmap
  | get (n : ℤ)
  | reset
  | header
  | getRGB (flag : ℤ)
  | getBanner

/-- What a call returns. `kok_read_para` returns a variable it has not set unless it fails, which is
`some none`. -/
inductive KokAnswer
  | para (rc : Option ℤ)
  | bitmap (image : Option KoklibBitmap)
  | line (found : Option (ℕ × KoklibLyricspara))
  | done
  | header (hdr : KoklibHdrDs)
  | rgb (colours : List.Vector (BitVec 32) 8)
  | banner (image : List UInt8) (width height rwidth : ℤ)
  deriving DecidableEq

/-- The loop of `kok_get` from position `j` on, with `left` positions up to `lyricspara`. A record
outside the memory cannot be read. -/
def kokGetLoop (lptr : List KoklibLyricspara) (i : ℤ) :
    ℕ → ℕ → Option (Option (ℕ × KoklibLyricspara) × ℕ)
  | 0, j => some (none, j)
  | left + 1, j =>
    lptr[j]?.bind fun para ↦
      if para.updown.toInt = i then some (some (j, para), j + 1)
      else kokGetLoop lptr i left (j + 1)

/-- `kok_get` -/
def kokGet (pd : KoklibPd) (n : ℤ) : Option (KokAnswer × KoklibPd) :=
  match pd.lptr with
  | none => some (.line none, pd)
  | some lptr =>
    let lyricspara := pd.header.lyricspara.toInt.toNat
    if n = 0 then
      (kokGetLoop lptr 0 (lyricspara - pd.idx0) pd.idx0).map fun (found, idx0) ↦
        (.line found, { pd with idx0 := idx0 })
    else
      (kokGetLoop lptr 1 (lyricspara - pd.idx1) pd.idx1).map fun (found, idx1) ↦
        (.line found, { pd with idx1 := idx1 })

/-- `kok_read_para` -/
def kokReadPara (pd : KoklibPd) : Option (KokAnswer × KoklibPd) :=
  match pd.lptr with
  | none => some (.para (some (-1)), pd)
  | some lptr =>
    if pd.header.lyricspara.toInt ≤ pd.lidx then some (.para (some (-1)), pd)
    else
      lptr[pd.lidx]?.map fun lp ↦
        (.para none,
          { pd with lptr := some (lptr.set pd.lidx lp.terminate), lidx := pd.lidx + 1 })

/-- `kok_read_bitmap`, which reads the record at `bidx` and fails when `malloc` does. -/
def kokReadBitmap (pd : KoklibPd) : Option (KokAnswer × KoklibPd) :=
  if pd.header.lyricspara.toInt ≤ pd.bidx then some (.bitmap none, pd)
  else do
    let lptr ← pd.lptr
    let lp ← lptr[pd.bidx]?
    let realsizes := pd.header.realsizes.toInt
    let length := lp.length.toInt
    let widthArray := bitmapWidthArray length realsizes
    let len := widthArray * realsizes
    if len < 0 then some (.bitmap none, pd)
    else
      let (bmp, stream) := stioRead pd.stream len.toNat
      let image : KoklibBitmap :=
        { size := len, width := widthArray, height := realsizes,
          realWidth := (length * realsizes).tdiv 2, bmp := bmp }
      some (.bitmap (some image), { pd with stream := stream, bidx := pd.bidx + 1 })

/-- `kok_get_RGB` -/
def kokGetRGB (pd : KoklibPd) (flag : ℤ) : List.Vector (BitVec 32) 8 :=
  if flag = 0 then pd.header.orgb else pd.header.rgb

/-- A call of the object. -/
def kokCall (pd : KoklibPd) : KokCall → Option (KokAnswer × KoklibPd)
  | .readPara => kokReadPara pd
  | .readBitmap => kokReadBitmap pd
  | .get n => kokGet pd n
  | .reset => some (.done, kokReset pd)
  | .header => some (.header pd.header, pd)
  | .getRGB flag => some (.rgb (kokGetRGB pd flag), pd)
  | .getBanner =>
    some (.banner pd.banner pd.bannerWidth kokBannerImageHeight kokBannerImageWidth, pd)

end Katmai.Koklib
