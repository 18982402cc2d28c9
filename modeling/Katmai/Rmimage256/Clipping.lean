import Katmai.Rmimage256.Border
import Katmai.Rmimage256.PackedBitmap

/-!
# Clipping

Five drawing functions clip their rectangle to the image in five ways. `Confined` says that an image
was made from another by stores to pixels of the image in a target area; one more such store keeps
it (`Confined.put`), and so do the loops around it. All five are confined to their target areas,
except that `imgPackedBitmap` draws a column behind its last one
(`DrawingOp.clipped_iff`).
-/

set_option autoImplicit false
set_option relaxedAutoImplicit false

namespace Katmai.Rmimage256

open Foundation

variable {img out : Image} {target : ℤ → ℤ → Prop} {x y : ℤ} {c : BitVec 8}

/-! ### Stores into a target area -/

/-- The image was made from another by stores to pixels of the image in the target area. -/
structure Confined (target : ℤ → ℤ → Prop) (img out : Image) : Prop where
  width : out.width = img.width
  height : out.height = img.height
  stores : ∀ pos ∈ out.written, pos ∈ img.written ∨
    ∃ x y, img.Contains x y ∧ target x y ∧ pos = x + y * img.width
  bytes : ∀ i, (∀ x y, img.Contains x y → target x y → i ≠ imageOffset + (x + y * img.width)) →
    out.bytes i = img.bytes i

theorem Confined.refl (target : ℤ → ℤ → Prop) (img : Image) : Confined target img img :=
  ⟨rfl, rfl, fun _ ↦ .inl, fun _ _ ↦ rfl⟩

theorem Confined.put (hout : Confined target img out) (hxy : img.Contains x y)
    (htarget : target x y) {pos : ℤ} (hpos : pos = x + y * img.width) :
    Confined target img (out.put pos c) where
  width := hout.width
  height := hout.height
  stores q hq := by
    rcases List.mem_append.mp hq with hq | hq
    · exact hout.stores q hq
    · exact .inr ⟨x, y, hxy, htarget, (List.mem_singleton.mp hq).trans hpos⟩
  bytes i hi := by
    have hother : i ≠ imageOffset + pos := hpos ▸ hi x y hxy htarget
    exact (Function.update_of_ne hother _ _).trans (hout.bytes i hi)

theorem Confined.mono {wider : ℤ → ℤ → Prop} (hconfined : Confined target img out)
    (hle : ∀ x y, target x y → wider x y) : Confined wider img out where
  width := hconfined.width
  height := hconfined.height
  stores pos hpos := (hconfined.stores pos hpos).imp_right
    fun ⟨x, y, hxy, htarget, heq⟩ ↦ ⟨x, y, hxy, hle x y htarget, heq⟩
  bytes i hi := hconfined.bytes i fun x y hxy htarget ↦ hi x y hxy (hle x y htarget)

/-- A store behind a guard. -/
theorem Confined.putIf {guard : Prop} [Decidable guard] {pos : ℤ}
    (hout : Confined target img out)
    (hguard : guard → img.Contains x y ∧ target x y ∧ pos = x + y * img.width) :
    Confined target img (if guard then out.put pos c else out) := by
  split_ifs with h
  · obtain ⟨hxy, htarget, hpos⟩ := hguard h
    exact hout.put hxy htarget hpos
  · exact hout

/-! ### The operations -/

/-- A call of a drawing function, with its arguments. -/
inductive DrawingOp
  | rectangle (xx yy xl yl cidx : ℤ) (fill : Bool)
  | atob (xx yy xl yl aidx bidx : ℤ)
  | paste (xx yy : ℤ) (other : Option Image)
  | border (xx yy xl yl fc bc bw : ℤ)
  | packedBitmap (xx yy fidx bidx : ℤ) (bmp : ℤ → BitVec 8) (width height realwidth : ℤ)

def DrawingOp.run (signed : Bool) : DrawingOp → Image → Image
  | .rectangle xx yy xl yl cidx fill, img => imgRectangle img xx yy xl yl cidx fill
  | .atob xx yy xl yl aidx bidx, img => imgAtob signed img xx yy xl yl aidx bidx
  | .paste xx yy other, img => imgPaste img xx yy other
  | .border xx yy xl yl fc bc bw, img => imgBorder signed img xx yy xl yl fc bc bw
  | .packedBitmap xx yy fidx bidx bmp width height realwidth, img =>
    imgPackedBitmap signed img xx yy fidx bidx bmp width height realwidth

/-- A box of a width and a height. -/
def InBox (xx yy xl yl x y : ℤ) : Prop :=
  (xx ≤ x ∧ x < xx + xl) ∧ yy ≤ y ∧ y < yy + yl

/-- The lines around a box: its first row and column, and those `xl` and `yl` further on. -/
def OnOutline (xx yy xl yl x y : ℤ) : Prop :=
  ((xx ≤ x ∧ x < xx + xl) ∧ (y = yy ∨ y = yy + yl)) ∨
    ((yy ≤ y ∧ y < yy + yl) ∧ (x = xx ∨ x = xx + xl))

/-- The target area of a call: the rectangle that it names, or the lines around it. -/
def DrawingOp.Target (img : Image) : DrawingOp → ℤ → ℤ → Prop
  | .rectangle xx yy xl yl _ fill =>
    if fill then InBox xx yy xl yl else OnOutline xx yy xl yl
  | .atob xx yy xl yl _ _ => InBox xx yy xl yl
  | .paste xx yy other => InBox xx yy (other.getD img).width (other.getD img).height
  | .border xx yy xl yl _ _ _ => InBox xx yy xl yl
  | .packedBitmap xx yy _ _ _ width height realwidth =>
    InBox xx yy (min realwidth (8 * width)) height

/-- The image with no stores recorded. -/
def Image.unrecorded (img : Image) : Image :=
  { img with written := [] }

/-- The call stores to pixels of the image in its target area only; the header, the palette and all
other pixels are as they were. -/
structure DrawingOp.Clipped (signed : Bool) (img : Image) (op : DrawingOp) : Prop where
  stores : ∀ pos ∈ (op.run signed img.unrecorded).written,
    ∃ x y, img.Contains x y ∧ op.Target img x y ∧ pos = x + y * img.width
  header : ∀ i < imageOffset, (op.run signed img.unrecorded).bytes i = img.bytes i
  pixels : ∀ x y, img.Contains x y → ¬op.Target img x y →
    (op.run signed img.unrecorded).pixel x y = img.pixel x y

/-! ### Each operation -/

section Box

variable {xx yy xl yl : ℤ}

/-- Two loops over a box with a guard for the row and one for the column, around at most one
store. -/
theorem confined_boxLoop (f : ℤ → ℤ → Image → Image)
    (hf : ∀ x y out, img.Contains x y → InBox xx yy xl yl x y →
      Confined (InBox xx yy xl yl) img out → Confined (InBox xx yy xl yl) img (f x y out)) :
    Confined (InBox xx yy xl yl) img (forRange 0 yl (fun yc out ↦
      if yy + yc ≥ 0 ∧ yy + yc < img.height then
        forRange 0 xl (fun xc out ↦
          if xx + xc ≥ 0 ∧ xx + xc < img.width then f (xx + xc) (yy + yc) out else out) out
      else out) img) := by
  refine forRange_preserves (.refl _ img) fun yc out hlo hhi hout ↦ ?_
  split_ifs with hrow
  · refine forRange_preserves hout fun xc out hxlo hxhi hout ↦ ?_
    split_ifs with hcolumn
    · refine hf _ _ _ ⟨hcolumn, hrow⟩ ?_ hout
      unfold InBox
      omega
    · exact hout
  · exact hout

theorem confined_imgRectangle_fill (cidx : ℤ) :
    Confined (InBox xx yy xl yl) img (imgRectangle img xx yy xl yl cidx true) := by
  unfold imgRectangle
  split_ifs with hcidx hfill
  · exact .refl _ img
  · exact confined_boxLoop (fun x y out ↦ out.put (x + y * img.width) (toChar cidx))
      fun x y out hxy hbox hout ↦ hout.put hxy hbox rfl
  · exact absurd rfl hfill

theorem confined_imgAtob (signed : Bool) (aidx bidx : ℤ) :
    Confined (InBox xx yy xl yl) img (imgAtob signed img xx yy xl yl aidx bidx) := by
  refine confined_boxLoop (fun x y out ↦
    if charValue signed (out.ptr (x + y * img.width)) = aidx then
      out.put (x + y * img.width) (toChar bidx) else out) fun x y out hxy hbox hout ↦ ?_
  split_ifs
  · exact hout.put hxy hbox rfl
  · exact hout

theorem confined_imgPaste (img : Image) (xx yy : ℤ) (other : Option Image) :
    Confined (InBox xx yy (other.getD img).width (other.getD img).height) img
      (imgPaste img xx yy other) := by
  unfold imgPaste
  refine forRange_preserves (.refl _ img) fun yc out hlo hhi hout ↦ ?_
  simp only
  split_ifs with hrow
  · refine forRange_preserves hout fun xc out hxlo hxhi hout ↦ ?_
    split_ifs with hcolumn
    · refine hout.put ⟨hcolumn, hrow⟩ ?_ rfl
      unfold InBox
      omega
    · exact hout
  · exact hout

theorem confined_borderPixel (signed : Bool) (fc bc bw : ℤ) (hout : Confined target img out)
    (hxy : img.Contains x y) (htarget : target x y) :
    Confined target img (borderPixel signed fc bc bw x y out) := by
  by_cases hstore : charValue signed (out.pixel x y) = fc ∨
      charValue signed (out.pixel x y) = bc ∨ ¬Near signed fc bw out x y
  · rwa [borderPixel_of_not hstore]
  · obtain ⟨hnotfc, hnotbc, hnear⟩ := not_or.mp hstore |>.imp_right not_or.mp
    rw [borderPixel_of_near hnotfc hnotbc (not_not.mp hnear), hout.width]
    exact hout.put hxy htarget rfl

theorem confined_imgBorder (signed : Bool) (fc bc bw : ℤ) :
    Confined (InBox xx yy xl yl) img (imgBorder signed img xx yy xl yl fc bc bw) := by
  unfold imgBorder
  refine forRange_preserves (.refl _ img) fun y out hylo hyhi hout ↦ ?_
  refine forRange_preserves hout fun x out hxlo hxhi hout ↦ ?_
  refine confined_borderPixel signed fc bc bw hout ?_ ?_
  · unfold Image.Contains
    split_ifs at hylo hyhi hxlo hxhi <;> omega
  · unfold InBox
    split_ifs at hylo hyhi hxlo hxhi <;> omega

/-- A row of the image begins where the product says, if the image has that row. -/
theorem product_eq {w h : ℤ} (hw : 0 < w) (hsize : w * h < 2147483648) (hy : 0 ≤ y ∧ y < h) :
    product y w = y * w := by
  have hlow : 0 ≤ y * w := Int.mul_nonneg hy.1 hw.le
  have hhigh : y * w ≤ h * w := Int.mul_le_mul_of_nonneg_right hy.2.le hw.le
  rw [Int.mul_comm] at hsize
  exact Int.bmod_eq_of_le (by omega) (by omega)

theorem confined_imgRectangle_outline (hw : 1 ≤ img.width)
    (hsize : img.width * img.height < 2147483648) (cidx : ℤ) :
    Confined (OnOutline xx yy xl yl) img (imgRectangle img xx yy xl yl cidx false) := by
  have hproduct {y : ℤ} (hy : y ≥ 0 ∧ y < img.height) : product y img.width = y * img.width :=
    product_eq (by omega) hsize hy
  unfold imgRectangle
  split_ifs with hcidx hfill
  · exact .refl _ img
  · exact hfill.elim
  · refine forRange_preserves (forRange_preserves (.refl _ img) ?_) ?_
    · intro j out hlo hhi hout
      by_cases hcolumn : xx + j ≥ 0 ∧ xx + j < img.width
      · simp only [if_pos hcolumn]
        refine (hout.putIf (x := xx + j) (y := yy) fun hrow ↦ ?_).putIf
          (x := xx + j) (y := yy + yl) fun hrow ↦ ?_
        · exact ⟨⟨hcolumn, hrow⟩, .inl ⟨by omega, .inl rfl⟩, by rw [hproduct hrow]⟩
        · exact ⟨⟨hcolumn, hrow⟩, .inl ⟨by omega, .inr rfl⟩, by rw [hproduct hrow]⟩
      · simpa only [if_neg hcolumn] using hout
    · intro j out hlo hhi hout
      by_cases hrow : yy + j ≥ 0 ∧ yy + j < img.height
      · simp only [if_pos hrow]
        refine (hout.putIf (x := xx) (y := yy + j) fun hcolumn ↦ ?_).putIf
          (x := xx + xl) (y := yy + j) fun hcolumn ↦ ?_
        · exact ⟨⟨hcolumn, hrow⟩, .inr ⟨by omega, .inl rfl⟩, rfl⟩
        · exact ⟨⟨hcolumn, hrow⟩, .inr ⟨by omega, .inr rfl⟩, rfl⟩
      · simpa only [if_neg hrow] using hout

theorem confined_imgPackedBitmap (signed : Bool) (fidx bidx : ℤ) (bmp : ℤ → BitVec 8)
    (width height realwidth : ℤ) :
    Confined (fun x y ↦ (x, y) ∈ glyphCells img xx yy width height realwidth) img
      (imgPackedBitmap signed img xx yy fidx bidx bmp width height realwidth) := by
  rw [imgPackedBitmap_eq]
  refine forRange_preserves (.refl _ img) fun y out hylo hyhi hout ↦ ?_
  refine forRange_preserves hout fun x out hxlo hxhi hout ↦ ?_
  have hmem : (x, y) ∈ glyphCells img xx yy width height realwidth := ⟨⟨hxlo, hxhi⟩, hylo, hyhi⟩
  exact hout.put (contains_of_mem_glyphCells hmem) hmem (Int.add_comm _ _)

end Box

/-! ### All operations -/

/-- Where the operation is confined to its target area, its call is clipped. -/
theorem Confined.clipped {signed : Bool} {op : DrawingOp}
    (hconfined : Confined (op.Target img) img.unrecorded (op.run signed img.unrecorded)) :
    op.Clipped signed img where
  stores pos hpos := (hconfined.stores pos hpos).resolve_left List.not_mem_nil
  header i hi := by
    refine hconfined.bytes i fun x y hxy _ heq ↦ ?_
    have hoffset : 0 ≤ y * img.unrecorded.width :=
      Int.mul_nonneg hxy.2.1 (hxy.1.1.trans hxy.1.2.le)
    have hx := hxy.1.1
    omega
  pixels x y hxy hnot := by
    rw [Image.pixel, hconfined.width]
    refine hconfined.bytes _ fun a b hab htarget heq ↦ ?_
    obtain ⟨rfl, rfl⟩ := offset_inj hxy.1 hab.1 (Int.add_left_cancel heq)
    exact hnot htarget

/-- The bitmap ends with its last byte, or the column behind its last one is not in the image. -/
def DrawingOp.EndsInImage (img : Image) : DrawingOp → Prop
  | .packedBitmap xx yy _ _ _ width height realwidth =>
    ¬((0 ≤ realwidth ∧ realwidth < 8 * width) ∧ (0 ≤ xx + realwidth ∧ xx + realwidth < img.width) ∧
      ∃ y, (0 ≤ y ∧ y < img.height) ∧ yy ≤ y ∧ y < yy + height)
  | _ => True

theorem glyphCells_subset {xx yy width height realwidth : ℤ} (fidx bidx : ℤ) (bmp : ℤ → BitVec 8)
    (hends : (DrawingOp.packedBitmap xx yy fidx bidx bmp width height realwidth).EndsInImage img)
    (hmem : (x, y) ∈ glyphCells img xx yy width height realwidth) :
    InBox xx yy (min realwidth (8 * width)) height x y := by
  have hxy := contains_of_mem_glyphCells hmem
  simp only [glyphCells, cells, rightEdge, Set.mem_ofPred_eq] at hmem
  by_contra hout
  refine hends ⟨?_, ?_, y, hxy.2, by omega⟩
  · unfold InBox at hout
    omega
  · unfold InBox at hout
    omega

/-- A call that draws the column behind the last one of the bitmap. -/
theorem not_clipped_of_column {signed : Bool} {xx yy fidx bidx width height realwidth : ℤ}
    {bmp : ℤ → BitVec 8}
    (hcolumn : (0 ≤ realwidth ∧ realwidth < 8 * width) ∧
      (0 ≤ xx + realwidth ∧ xx + realwidth < img.width) ∧
        ∃ y, (0 ≤ y ∧ y < img.height) ∧ yy ≤ y ∧ y < yy + height) :
    ¬(DrawingOp.packedBitmap xx yy fidx bidx bmp width height realwidth).Clipped signed img := by
  obtain ⟨hreal, hx, y, hy, hrow⟩ := hcolumn
  intro hclipped
  have hmem : (xx + realwidth, y) ∈ glyphCells img xx yy width height realwidth := by
    simp only [glyphCells, cells, rightEdge, Set.mem_ofPred_eq]
    omega
  obtain ⟨a, b, hab, htarget, hpos⟩ := hclipped.stores _
    ((painting_imgPackedBitmap signed img.unrecorded xx yy fidx bidx bmp width height
      realwidth).written _ hmem)
  obtain ⟨rfl, rfl⟩ := offset_inj hx hab.1 hpos
  exact absurd htarget.1.2 (by omega)

/-- For every image of up to 2^31 pixels and every call of the five functions, whatever its
arguments: the call stores to pixels of the image in its target area only, if and only if it is no
call of `imgPackedBitmap` that draws the column behind its last one. -/
theorem DrawingOp.clipped_iff (signed : Bool) (img : Image) (op : DrawingOp)
    (hw : 1 ≤ img.width) (hsize : img.width * img.height < 2147483648) :
    op.Clipped signed img ↔ op.EndsInImage img := by
  constructor
  · intro hclipped
    cases op with
    | packedBitmap xx yy fidx bidx bmp width height realwidth =>
      exact fun hcolumn ↦ not_clipped_of_column hcolumn hclipped
    | _ => trivial
  · intro hends
    refine Confined.clipped ?_
    cases op with
    | rectangle xx yy xl yl cidx fill =>
      cases fill with
      | true => exact confined_imgRectangle_fill cidx
      | false =>
        exact confined_imgRectangle_outline (show 1 ≤ img.unrecorded.width from hw) hsize cidx
    | atob xx yy xl yl aidx bidx => exact confined_imgAtob signed aidx bidx
    | paste xx yy other =>
      cases other with
      | none => exact confined_imgPaste img.unrecorded xx yy none
      | some other => exact confined_imgPaste img.unrecorded xx yy (some other)
    | border xx yy xl yl fc bc bw => exact confined_imgBorder signed fc bc bw
    | packedBitmap xx yy fidx bidx bmp width height realwidth =>
      exact (confined_imgPackedBitmap signed fidx bidx bmp width height realwidth).mono
        fun x y ↦ glyphCells_subset fidx bidx bmp hends

/-- A rectangle that begins in front of the image and ends behind it. -/
theorem clipped_rectangle_blankPair :
    (DrawingOp.rectangle (-1) (-1) 5 5 7 false).Clipped true blankPair :=
  (DrawingOp.clipped_iff true blankPair (.rectangle (-1) (-1) 5 5 7 false) (by decide)
    (by decide)).mpr trivial

/-- A bitmap of one byte and one column. -/
theorem not_clipped_packedBitmap_blankPair :
    ¬(DrawingOp.packedBitmap 0 0 1 2 (fun _ ↦ 0x80) 1 1 1).Clipped true blankPair :=
  not_clipped_of_column ⟨by decide, by decide, 0, by decide⟩

end Katmai.Rmimage256
