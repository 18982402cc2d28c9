import Katmai.Foundation.CountedLoop
import Mathlib.Logic.Function.Basic

/-!
# Images of 256 colours

An image is one block of bytes: a header, a palette and, from `imageOffset` on, one byte a pixel in
rows. The drawing functions go through rectangles of it and store single pixels (`Image.put`), which
also records where they store. A pixel is read as a plain `char`: whether it has a sign is left to
the compiler (`signed`).

Sums of coordinates are taken to be in the range of `int`. The two products that `imgRectangle`
takes before it looks at its guards are reduced to that range (`product`).
-/

set_option autoImplicit false
set_option relaxedAutoImplicit false

namespace Katmai.Rmimage256

open Foundation

/-- `IMAGE_OFFSET` -/
def imageOffset : ℤ :=
  1032

/-- `struct rmimage256_pd_t`. `written` records the offsets from the first pixel that are stored to;
the code has no such field. -/
structure Image where
  width : ℤ
  height : ℤ
  bytes : ℤ → BitVec 8
  written : List ℤ

/-- `ptr[pos]`, where `ptr` is the first pixel. -/
def Image.ptr (img : Image) (pos : ℤ) : BitVec 8 :=
  img.bytes (imageOffset + pos)

/-- `ptr[pos] = b` -/
def Image.put (img : Image) (pos : ℤ) (b : BitVec 8) : Image :=
  { img with
    bytes := Function.update img.bytes (imageOffset + pos) b
    written := img.written ++ [pos] }

/-- A colour index stored in a `char`. -/
def toChar (c : ℤ) : BitVec 8 :=
  BitVec.ofInt 8 c

/-- The value of a plain `char` in an expression. -/
def charValue (signed : Bool) (b : BitVec 8) : ℤ :=
  if signed then b.toInt else b.toNat

/-- A product of type `int`. -/
def product (a b : ℤ) : ℤ :=
  (a * b).bmod 4294967296

/-- `img_rectangle` -/
def imgRectangle (img : Image) (xx yy xl yl cidx : ℤ) (fill : Bool) : Image :=
  let w := img.width
  let h := img.height
  if cidx < 0 ∨ cidx > 255 then img
  else if fill then
    forRange 0 yl (fun yc img ↦
      let y := yy + yc
      if y ≥ 0 ∧ y < h then
        let k := y * w
        forRange 0 xl (fun xc img ↦
          let x := xx + xc
          if x ≥ 0 ∧ x < w then img.put (x + k) (toChar cidx) else img) img
      else img) img
  else
    let k := yy + yl
    let x := product yy w
    let y := product k w
    let img := forRange 0 xl (fun j img ↦
      let i := xx + j
      if i ≥ 0 ∧ i < w then
        let img := if yy ≥ 0 ∧ yy < h then img.put (i + x) (toChar cidx) else img
        if k ≥ 0 ∧ k < h then img.put (i + y) (toChar cidx) else img
      else img) img
    let x := xx
    let k := xx + xl
    forRange 0 yl (fun j img ↦
      let i := yy + j
      if i ≥ 0 ∧ i < h then
        let y := i * w
        let img := if x ≥ 0 ∧ x < w then img.put (x + y) (toChar cidx) else img
        if k ≥ 0 ∧ k < w then img.put (k + y) (toChar cidx) else img
      else img) img

/-- `img_atob` -/
def imgAtob (signed : Bool) (img : Image) (xx yy xl yl aidx bidx : ℤ) : Image :=
  let w := img.width
  let h := img.height
  forRange 0 yl (fun yc img ↦
    let y := yy + yc
    if y ≥ 0 ∧ y < h then
      let k := y * w
      forRange 0 xl (fun xc img ↦
        let x := xx + xc
        if x ≥ 0 ∧ x < w then
          if charValue signed (img.ptr (x + k)) = aidx then img.put (x + k) (toChar bidx) else img
        else img) img
    else img) img

/-- `img_paste`; `none` is the image itself. -/
def imgPaste (img : Image) (xx yy : ℤ) (other : Option Image) : Image :=
  let w := img.width
  let h := img.height
  let xl := (other.getD img).width
  let yl := (other.getD img).height
  forRange 0 yl (fun yc img ↦
    let y := yy + yc
    if y ≥ 0 ∧ y < h then
      let k := y * w
      let i := yc * xl
      forRange 0 xl (fun xc img ↦
        let x := xx + xc
        if x ≥ 0 ∧ x < w then img.put (x + k) ((other.getD img).ptr (xc + i)) else img) img
    else img) img

section Border

variable (signed : Bool) (fc bc bw x y : ℤ)

/-- The innermost loop of `img_border`, and whether it was left by `i = j = bw; break`. -/
def scanColumn (i j : ℤ) (img : Image) : Bool × Image :=
  if j ≤ bw then
    if y + j < 0 then scanColumn i (j + 1) img
    else if y + j ≥ img.height then scanColumn i (j + 1) img
    else
      let dist : ℤ := i.natAbs + j.natAbs
      if dist = 0 then scanColumn i (j + 1) img
      else if dist > bw then scanColumn i (j + 1) img
      else
        let pos := (x + i) + (y + j) * img.width
        if charValue signed (img.ptr pos) = fc then
          (true, img.put (x + y * img.width) (toChar bc))
        else scanColumn i (j + 1) img
  else (false, img)
termination_by (bw + 1 - j).toNat
decreasing_by all_goals omega

/-- The loop around it. -/
def scanNeighbours (i : ℤ) (img : Image) : Image :=
  if i ≤ bw then
    if x + i < 0 then scanNeighbours (i + 1) img
    else if x + i ≥ img.width then scanNeighbours (i + 1) img
    else
      let (left, img) := scanColumn signed fc bc bw x y i (-bw) img
      let i := if left then bw else i
      scanNeighbours (i + 1) img
  else img
termination_by (bw + 1 - i).toNat
decreasing_by
  all_goals (try split) <;> omega

/-- The body of the loops over the rectangle. -/
def borderPixel (img : Image) : Image :=
  let k := y * img.width
  if charValue signed (img.ptr (x + k)) = fc then img
  else if charValue signed (img.ptr (x + k)) = bc then img
  else scanNeighbours signed fc bc bw x y (-bw) img

end Border

/-- `img_border` -/
def imgBorder (signed : Bool) (img : Image) (xx yy xl yl fc bc bw : ℤ) : Image :=
  let w := img.width
  let h := img.height
  let xe := xx + xl
  let ye := yy + yl
  let xb := if xx > 0 then xx else 0
  let yb := if yy > 0 then yy else 0
  let xe := if xe < w then xe else w
  let ye := if ye < h then ye else h
  forRange yb ye (fun y img ↦
    forRange xb xe (fun x img ↦ borderPixel signed fc bc bw x y img) img) img

/-- The loop over the bits of a byte. Returns the column it stops at. -/
def packedBits (xx fidx bidx realwidth j : ℤ) : ℕ → ℤ → BitVec 32 → Image → ℤ × Image
  | 0, x, _, img => (x, img)
  | n + 1, x, bmb, img =>
    if x < 0 then packedBits xx fidx bidx realwidth j n (x + 1) (bmb <<< 1) img
    else if x ≥ img.width then (x, img)
    else if x - xx > realwidth then (x, img)
    else
      let c := if bmb &&& 0x80 ≠ 0 then fidx else bidx
      packedBits xx fidx bidx realwidth j n (x + 1) (bmb <<< 1) (img.put (j + x) (toChar c))

/-- The loop over the bytes of a row. -/
def packedRow (signed : Bool) (xx fidx bidx : ℤ) (bmp : ℤ → BitVec 8) (width realwidth j k : ℤ)
    (img : Image) : Image :=
  (forRange 0 width (fun ww (x, img) ↦
    let bmb := BitVec.ofInt 32 (charValue signed (bmp (k + ww)))
    packedBits xx fidx bidx realwidth j 8 x bmb img) (xx, img)).2

/-- The loop over the rows; the argument is `hh + 1`. -/
def packedRows (signed : Bool) (xx fidx bidx : ℤ) (bmp : ℤ → BitVec 8) (width realwidth : ℤ) :
    ℕ → ℤ → Image → Image
  | 0, _, img => img
  | hh + 1, y, img =>
    if y < 0 then packedRows signed xx fidx bidx bmp width realwidth hh (y + 1) img
    else if y ≥ img.height then img
    else
      let j := y * img.width
      let k := hh * width
      packedRows signed xx fidx bidx bmp width realwidth hh (y + 1)
        (packedRow signed xx fidx bidx bmp width realwidth j k img)

/-- `img_packedBitmap` -/
def imgPackedBitmap (signed : Bool) (img : Image) (xx yy fidx bidx : ℤ) (bmp : ℤ → BitVec 8)
    (width height realwidth : ℤ) : Image :=
  packedRows signed xx fidx bidx bmp width realwidth height.toNat yy img

/-! ### Pixels -/

/-- The coordinates of a pixel of the image. -/
def Image.Contains (img : Image) (x y : ℤ) : Prop :=
  (0 ≤ x ∧ x < img.width) ∧ 0 ≤ y ∧ y < img.height

/-- The byte of a pixel. -/
def Image.pixel (img : Image) (x y : ℤ) : BitVec 8 :=
  img.ptr (x + y * img.width)

variable {img : Image} {a b x y : ℤ} {c : BitVec 8}

@[simp] theorem width_put (img : Image) (pos : ℤ) (c : BitVec 8) :
    (img.put pos c).width = img.width :=
  rfl

@[simp] theorem height_put (img : Image) (pos : ℤ) (c : BitVec 8) :
    (img.put pos c).height = img.height :=
  rfl

/-- Different pixels are at different offsets. -/
theorem offset_inj {w : ℤ} (ha : 0 ≤ a ∧ a < w) (hx : 0 ≤ x ∧ x < w)
    (heq : a + b * w = x + y * w) : a = x ∧ b = y := by
  have hax : a = x := by
    have hmod := congrArg (· % w) heq
    simpa only [Int.add_mul_emod_self_right, Int.emod_eq_of_lt ha.1 ha.2,
      Int.emod_eq_of_lt hx.1 hx.2] using hmod
  have hpos : w ≠ 0 := by omega
  subst hax
  exact ⟨rfl, Int.eq_of_mul_eq_mul_right hpos (Int.add_left_cancel heq)⟩

theorem pixel_put (hxy : img.Contains x y) (hab : img.Contains a b) (c : BitVec 8) :
    (img.put (x + y * img.width) c).pixel a b = if (a, b) = (x, y) then c else img.pixel a b := by
  by_cases heq : (a, b) = (x, y)
  · obtain ⟨rfl, rfl⟩ := Prod.mk.inj heq
    rw [if_pos rfl]
    exact Function.update_self _ _ _
  · rw [if_neg heq]
    refine Function.update_of_ne (fun hoffset ↦ ?_) _ _
    obtain ⟨rfl, rfl⟩ := offset_inj hab.1 hxy.1 (Int.add_left_cancel hoffset)
    exact heq rfl

end Katmai.Rmimage256
