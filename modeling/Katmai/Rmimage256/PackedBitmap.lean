import Katmai.Rmimage256.Image

/-!
# Packed bitmaps

The column counter of `imgPackedBitmap` runs on through all bytes of a row and stops for good at the
right edge of the image or behind the column `realwidth`. So the loops over the bytes and their bits
are one counted loop over columns (`packedRow_eq`), and those over the rows one over the visible
rows (`imgPackedBitmap_eq`): together they go through a rectangle of cells, one column wider than
the bitmap when it does not end with its last byte.
-/

set_option autoImplicit false
set_option relaxedAutoImplicit false

namespace Katmai.Rmimage256

open Foundation

variable {signed : Bool} {xx yy fidx bidx width height realwidth x y j k : ℤ} {bmp : ℤ → BitVec 8}
  {img : Image}

/-! ### Bits -/

/-- Bit `7 - m` of a byte, from the left. -/
def leftBit (b : BitVec 8) (m : ℕ) : Bool :=
  b.getLsbD (7 - m)

/-- The top bit of the low byte. -/
theorem and_top_ne_zero_iff (v : BitVec 32) : v &&& 0x80 ≠ 0 ↔ v.getLsbD 7 = true := by
  have htop : (0x80 : BitVec 32) = BitVec.twoPow 32 7 := by decide
  rw [htop, BitVec.and_twoPow]
  cases v.getLsbD 7 <;> decide

/-- Shifted left `m` times, a byte shows its bit `m` from the left, whether it had a sign or not. -/
theorem top_shiftLeft (signed : Bool) (b : BitVec 8) (m : ℕ) (hm : m < 8) :
    BitVec.ofInt 32 (charValue signed b) <<< m &&& 0x80 ≠ 0 ↔ leftBit b m = true := by
  have hbyte : 7 - m < 8 := by omega
  have hword : 7 - m < 32 := by omega
  have hshift : ¬7 < m := by omega
  rw [and_top_ne_zero_iff, BitVec.getLsbD_shiftLeft, leftBit]
  cases signed with
  | true =>
    change (_ && (b.signExtend 32).getLsbD (7 - m)) = true ↔ _
    rw [BitVec.getLsbD_signExtend, if_pos hbyte]
    simp [hword, hshift]
  | false =>
    change (_ && (BitVec.ofInt 32 (b.toNat : ℤ)).getLsbD (7 - m)) = true ↔ _
    rw [BitVec.ofInt_natCast, BitVec.ofNat_toNat, BitVec.getLsbD_setWidth]
    simp [hword, hshift]

/-- The colour of a column of a row of the bitmap that begins at byte `k`. -/
def columnColour (fidx bidx : ℤ) (bmp : ℤ → BitVec 8) (k c : ℤ) : BitVec 8 :=
  toChar (if leftBit (bmp (k + c / 8)) (c % 8).toNat then fidx else bidx)

/-! ### One row -/

/-- The column at which the counter stops for good. -/
def stopColumn (w xx realwidth : ℤ) : ℤ :=
  max (max 0 xx) (min w (xx + realwidth + 1))

/-- The columns of a row from the left edge up to a column. -/
def paintColumns (xx fidx bidx : ℤ) (bmp : ℤ → BitVec 8) (j k x : ℤ) (img : Image) : Image :=
  forRange (max 0 xx) x (fun x img ↦ img.put (j + x) (columnColour fidx bidx bmp k (x - xx))) img

theorem width_paintColumns : (paintColumns xx fidx bidx bmp j k x img).width = img.width :=
  forRange_preserves (P := fun out : Image ↦ out.width = img.width) rfl fun _ _ _ _ hout ↦ hout

theorem height_paintColumns : (paintColumns xx fidx bidx bmp j k x img).height = img.height :=
  forRange_preserves (P := fun out : Image ↦ out.height = img.height) rfl fun _ _ _ _ hout ↦ hout

/-- A column at which the counter stops. -/
theorem packedBits_of_stopped {out : Image} (n : ℕ) (bmb : BitVec 32) (hleft : ¬x < 0)
    (hfull : x ≥ out.width ∨ x - xx > realwidth) :
    packedBits xx fidx bidx realwidth j n x bmb out = (x, out) := by
  cases n with
  | zero => rfl
  | succ n =>
    rw [packedBits, if_neg hleft]
    by_cases hedge : x ≥ out.width
    · rw [if_pos hedge]
    · rw [if_neg hedge, if_pos (hfull.resolve_left hedge)]

/-- The loop over the bits goes on with the columns, up to the one at which the counter stops. -/
theorem packedBits_eq (n : ℕ) (bmb : BitVec 32) (hxx : xx ≤ x)
    (hstop : x ≤ stopColumn img.width xx realwidth)
    (hbits : ∀ m < n, (bmb <<< m &&& 0x80 ≠ 0 ↔
      leftBit (bmp (k + (x - xx + m) / 8)) ((x - xx + m) % 8).toNat = true)) :
    packedBits xx fidx bidx realwidth j n x bmb (paintColumns xx fidx bidx bmp j k x img) =
      (min (x + n) (stopColumn img.width xx realwidth), paintColumns xx fidx bidx bmp j k
        (min (x + n) (stopColumn img.width xx realwidth)) img) := by
  induction n generalizing x bmb with
  | zero =>
    rw [Int.natCast_zero, Int.add_zero, min_eq_left hstop]
    rfl
  | succ n ih =>
    have hnext : x + ((n + 1 : ℕ) : ℤ) = x + 1 + n := by omega
    have hshift : ∀ m < n, (bmb <<< 1 <<< m &&& 0x80 ≠ 0 ↔
        leftBit (bmp (k + (x + 1 - xx + m) / 8)) ((x + 1 - xx + m) % 8).toNat = true) := by
      intro m hm
      have hcolumn : x + 1 - xx + m = x - xx + ((m + 1 : ℕ) : ℤ) := by omega
      have hbmb : bmb <<< 1 <<< m = bmb <<< (m + 1) := by
        rw [Nat.add_comm, BitVec.shiftLeft_add]
      rw [hcolumn, hbmb]
      exact hbits (m + 1) (by omega)
    by_cases hleft : x < 0
    · have hsame : paintColumns xx fidx bidx bmp j k x img =
          paintColumns xx fidx bidx bmp j k (x + 1) img := by
        rw [paintColumns, paintColumns, forRange_of_le (by omega), forRange_of_le (by omega)]
      rw [packedBits, if_pos hleft, hsame, hnext]
      exact ih _ (by omega) (by unfold stopColumn; omega) hshift
    by_cases hfull : x ≥ img.width ∨ x - xx > realwidth
    · have hend : stopColumn img.width xx realwidth = x := by
        refine le_antisymm ?_ hstop
        unfold stopColumn
        omega
      rw [hend, min_eq_right (by omega),
        packedBits_of_stopped _ _ hleft (width_paintColumns.symm ▸ hfull)]
    · obtain ⟨hedge, hreal⟩ := not_or.mp hfull
      rw [packedBits, width_paintColumns, if_neg hleft, if_neg hedge, if_neg hreal]
      have hput : (paintColumns xx fidx bidx bmp j k x img).put (j + x)
          (toChar (if bmb &&& 0x80 ≠ 0 then fidx else bidx)) =
            paintColumns xx fidx bidx bmp j k (x + 1) img := by
        have hbit := hbits 0 n.succ_pos
        rw [BitVec.shiftLeft_zero, Int.natCast_zero, Int.add_zero] at hbit
        rw [paintColumns, paintColumns, forRange_succ (by omega), columnColour]
        simp only [hbit]
      simp only [hput]
      rw [hnext]
      exact ih _ (by omega) (by unfold stopColumn; omega) hshift

/-- The column behind the last one of a row that is drawn. -/
def rightEdge (w xx width realwidth : ℤ) : ℤ :=
  min (xx + 8 * width) (min w (xx + realwidth + 1))

/-- One byte of a row. -/
theorem packedBits_byte {ww : ℤ} (hww : 0 ≤ ww)
    (hx : x = min (xx + 8 * ww) (stopColumn img.width xx realwidth)) :
    packedBits xx fidx bidx realwidth j 8 x (BitVec.ofInt 32 (charValue signed (bmp (k + ww))))
        (paintColumns xx fidx bidx bmp j k x img) =
      (min (xx + 8 * (ww + 1)) (stopColumn img.width xx realwidth),
        paintColumns xx fidx bidx bmp j k
          (min (xx + 8 * (ww + 1)) (stopColumn img.width xx realwidth)) img) := by
  have hge : xx ≤ stopColumn img.width xx realwidth := by unfold stopColumn; omega
  by_cases hbefore : xx + 8 * ww ≤ stopColumn img.width xx realwidth
  · rw [min_eq_left hbefore] at hx
    subst hx
    refine (packedBits_eq 8 _ (by omega) hbefore fun m hm ↦ ?_).trans ?_
    · rw [top_shiftLeft signed _ m hm, show xx + 8 * ww - xx + m = m + 8 * ww by omega,
        show ((m : ℤ) + 8 * ww) / 8 = ww by omega, show (((m : ℤ) + 8 * ww) % 8).toNat = m by omega]
    · rw [show xx + 8 * ww + ((8 : ℕ) : ℤ) = xx + 8 * (ww + 1) by omega]
  · rw [min_eq_right (by omega)] at hx
    rw [packedBits_of_stopped, min_eq_right (by omega), hx]
    · unfold stopColumn at hx
      omega
    · rw [width_paintColumns]
      unfold stopColumn at hx
      omega

/-- The loop over the bytes of a row is a loop over its columns. -/
theorem packedRow_eq : packedRow signed xx fidx bidx bmp width realwidth j k img =
    paintColumns xx fidx bidx bmp j k (rightEdge img.width xx width realwidth) img := by
  have hnone (x : ℤ) (hx : x ≤ max 0 xx) : paintColumns xx fidx bidx bmp j k x img = img :=
    forRange_of_le hx
  rcases le_total 0 width with hwidth | hwidth
  swap
  · rw [packedRow, forRange_of_le hwidth, hnone _ (by unfold rightEdge; omega)]
  have hloop : forRange 0 width (fun ww s ↦ packedBits xx fidx bidx realwidth j 8 s.1
      (BitVec.ofInt 32 (charValue signed (bmp (k + ww)))) s.2) (xx, img) =
        (min (xx + 8 * width) (stopColumn img.width xx realwidth), paintColumns xx fidx bidx bmp j k
          (min (xx + 8 * width) (stopColumn img.width xx realwidth)) img) := by
    refine forRange_induct (motive := fun ww s ↦
      s = (min (xx + 8 * ww) (stopColumn img.width xx realwidth), paintColumns xx fidx bidx bmp j k
        (min (xx + 8 * ww) (stopColumn img.width xx realwidth)) img)) hwidth ?_ ?_
    · have hge : xx ≤ stopColumn img.width xx realwidth := by unfold stopColumn; omega
      rw [Int.mul_zero, Int.add_zero, min_eq_left hge, hnone xx (by omega)]
    · rintro ww s hww - rfl
      exact packedBits_byte hww rfl
  refine (congrArg Prod.snd hloop).trans ?_
  by_cases hlast : max 0 xx ≤ min img.width (xx + realwidth + 1)
  · rw [stopColumn, max_eq_right hlast]
    rfl
  · rw [hnone _ (by unfold stopColumn; omega), hnone _ (by unfold rightEdge; omega)]

/-! ### All rows -/

/-- The loop over the rows is a loop over those in the image; row `y` of the image shows the row of
the bitmap that is as far from its last one as `y` is from the first. -/
theorem packedRows_eq (n : ℕ) (img : Image) (y : ℤ) :
    packedRows signed xx fidx bidx bmp width realwidth n y img =
      forRange (max 0 y) (min img.height (y + n)) (fun r out ↦
        packedRow signed xx fidx bidx bmp width realwidth (r * img.width)
          ((n - 1 - (r - y)) * width) out) img := by
  induction n generalizing y img with
  | zero =>
    rw [packedRows, forRange_of_le (by omega)]
  | succ n ih =>
    have hend : y + 1 + n = y + ((n + 1 : ℕ) : ℤ) := by omega
    have hrow (r : ℤ) : (n - 1 - (r - (y + 1))) * width =
        (((n + 1 : ℕ) : ℤ) - 1 - (r - y)) * width := by
      rw [show (n : ℤ) - 1 - (r - (y + 1)) = ((n + 1 : ℕ) : ℤ) - 1 - (r - y) by omega]
    have hnext (out : Image) (hwidth : out.width = img.width) (hheight : out.height = img.height) :
        packedRows signed xx fidx bidx bmp width realwidth n (y + 1) out =
          forRange (max 0 (y + 1)) (min img.height (y + ((n + 1 : ℕ) : ℤ))) (fun r out ↦
            packedRow signed xx fidx bidx bmp width realwidth (r * img.width)
              ((((n + 1 : ℕ) : ℤ) - 1 - (r - y)) * width) out) out := by
      rw [ih, hwidth, hheight, hend]
      simp only [hrow]
    rw [packedRows]
    by_cases habove : y < 0
    · rw [if_pos habove, hnext img rfl rfl, show max 0 (y + 1) = max 0 y by omega]
    rw [if_neg habove]
    by_cases hbelow : y ≥ img.height
    · rw [if_pos hbelow, forRange_of_le (by omega)]
    rw [if_neg hbelow, forRange_cons (by omega), show max 0 y = y by omega]
    have hfirst : (((n + 1 : ℕ) : ℤ) - 1 - (y - y)) * width = n * width := by
      rw [show ((n + 1 : ℕ) : ℤ) - 1 - (y - y) = n by omega]
    simp only [hfirst]
    rw [hnext _ (packedRow_eq ▸ width_paintColumns) (packedRow_eq ▸ height_paintColumns),
      show max 0 (y + 1) = y + 1 by omega]

/-- The colour that the bitmap has for a pixel. -/
def glyphColour (xx yy fidx bidx : ℤ) (bmp : ℤ → BitVec 8) (width height x y : ℤ) : BitVec 8 :=
  columnColour fidx bidx bmp ((height - 1 - (y - yy)) * width) (x - xx)

/-- The cells that the loops go through. -/
def glyphCells (img : Image) (xx yy width height realwidth : ℤ) : Set (ℤ × ℤ) :=
  cells (max 0 xx) (rightEdge img.width xx width realwidth) (max 0 yy)
    (min img.height (yy + height))

theorem imgPackedBitmap_eq :
    imgPackedBitmap signed img xx yy fidx bidx bmp width height realwidth =
      forRange (max 0 yy) (min img.height (yy + height)) (fun y out ↦
        forRange (max 0 xx) (rightEdge img.width xx width realwidth) (fun x out ↦
          out.put (y * img.width + x)
            (glyphColour xx yy fidx bidx bmp width height x y)) out) img := by
  rw [imgPackedBitmap, packedRows_eq]
  rcases le_total 0 height with hheight | hheight
  · rw [Int.toNat_of_nonneg hheight]
    refine forRange_congr (P := fun out ↦ out.width = img.width) rfl (fun y out hout ↦ ?_) ?_
    · exact width_paintColumns.trans hout
    · intro y out _ _ hout
      rw [packedRow_eq, hout]
      rfl
  · rw [Int.toNat_of_nonpos hheight, forRange_of_le (by omega), forRange_of_le (by omega)]

/-- What a loop over cells that stores a colour in each makes of an image: the cells that are done
have their colours and are recorded, and all other pixels are as they were. -/
structure Painting (colour : ℤ → ℤ → BitVec 8) (img : Image) (done : Set (ℤ × ℤ))
    (out : Image) : Prop where
  width : out.width = img.width
  height : out.height = img.height
  drawn : ∀ a b, img.Contains a b → (a, b) ∈ done → out.pixel a b = colour a b
  kept : ∀ a b, img.Contains a b → (a, b) ∉ done → out.pixel a b = img.pixel a b
  written : ∀ p ∈ done, p.1 + p.2 * img.width ∈ out.written

theorem Painting.put {colour : ℤ → ℤ → BitVec 8} {done : Set (ℤ × ℤ)} {out : Image}
    (hout : Painting colour img done out) (hxy : img.Contains x y) :
    Painting colour img (insert (x, y) done) (out.put (y * img.width + x) (colour x y)) := by
  have hcontains (a b : ℤ) : out.Contains a b ↔ img.Contains a b := by
    rw [Image.Contains, Image.Contains, hout.width, hout.height]
  have hput (a b : ℤ) (hab : img.Contains a b) :=
    pixel_put ((hcontains x y).mpr hxy) ((hcontains a b).mpr hab) (colour x y)
  rw [Int.add_comm, ← hout.width]
  refine ⟨hout.width, hout.height, fun a b hab hmem ↦ ?_, fun a b hab hmem ↦ ?_, fun p hp ↦ ?_⟩
  · rw [hput a b hab]
    split_ifs with heq
    · obtain ⟨rfl, rfl⟩ := Prod.mk.inj heq
      rfl
    · exact hout.drawn a b hab (Set.mem_of_mem_insert_of_ne hmem heq)
  · have hother : (a, b) ≠ (x, y) := fun heq ↦ hmem (heq ▸ Set.mem_insert _ _)
    rw [hput a b hab, if_neg hother]
    exact hout.kept a b hab fun h ↦ hmem (Set.mem_insert_of_mem _ h)
  · rcases Set.mem_insert_iff.mp hp with rfl | hp
    · exact List.mem_append_right _ (List.mem_singleton.mpr (hout.width ▸ rfl))
    · exact List.mem_append_left _ (hout.written p hp)

theorem contains_of_mem_glyphCells (hmem : (x, y) ∈ glyphCells img xx yy width height realwidth) :
    img.Contains x y := by
  simp only [glyphCells, cells, rightEdge, Set.mem_ofPred_eq] at hmem
  unfold Image.Contains
  omega

/-- All cells are painted. -/
theorem painting_imgPackedBitmap (signed : Bool) (img : Image) (xx yy fidx bidx : ℤ)
    (bmp : ℤ → BitVec 8) (width height realwidth : ℤ) :
    Painting (glyphColour xx yy fidx bidx bmp width height) img
      (glyphCells img xx yy width height realwidth)
      (imgPackedBitmap signed img xx yy fidx bidx bmp width height realwidth) := by
  rw [imgPackedBitmap_eq]
  refine raster_induct ⟨rfl, rfl, fun _ _ _ h ↦ absurd h (Set.notMem_empty _), fun _ _ _ _ ↦ rfl,
    fun _ h ↦ absurd h (Set.notMem_empty _)⟩ fun done x y out hmem _ hout ↦ ?_
  exact hout.put (contains_of_mem_glyphCells hmem)

/-! ### The glyph -/

/-- The pixel shows a column of the bitmap. -/
def OnGlyph (xx yy height realwidth x y : ℤ) : Prop :=
  (xx ≤ x ∧ x < xx + realwidth) ∧ yy ≤ y ∧ y < yy + height

/-- The bitmap is drawn: the pixels of the image under its columns and rows have its colours, and
every other pixel is as it was. -/
structure DrawsGlyph (img : Image) (xx yy fidx bidx : ℤ) (bmp : ℤ → BitVec 8)
    (width height realwidth : ℤ) (out : Image) : Prop where
  inside : ∀ x y, img.Contains x y → OnGlyph xx yy height realwidth x y →
    out.pixel x y = glyphColour xx yy fidx bidx bmp width height x y
  others : ∀ x y, img.Contains x y → ¬OnGlyph xx yy height realwidth x y →
    out.pixel x y = img.pixel x y

theorem mem_glyphCells_iff (hreal : realwidth ≤ 8 * width) (hxy : img.Contains x y) :
    (x, y) ∈ glyphCells img xx yy width height realwidth ↔
      OnGlyph xx yy height realwidth x y ∨
        ((x = xx + realwidth ∧ 0 ≤ realwidth) ∧ realwidth < 8 * width) ∧
          yy ≤ y ∧ y < yy + height := by
  simp only [glyphCells, cells, rightEdge, Set.mem_ofPred_eq, OnGlyph]
  unfold Image.Contains at hxy
  omega

/-- For every bitmap, position and pair of colours: the bitmap is drawn if and only if it ends with
its last byte, or the pixels of the image behind its last column already have the colours of the
next bits. -/
theorem imgPackedBitmap_drawsGlyph_iff (signed : Bool) (img : Image) (xx yy fidx bidx : ℤ)
    (bmp : ℤ → BitVec 8) (width height realwidth : ℤ)
    (hreal : 0 < realwidth ∧ realwidth ≤ 8 * width) :
    DrawsGlyph img xx yy fidx bidx bmp width height realwidth
        (imgPackedBitmap signed img xx yy fidx bidx bmp width height realwidth) ↔
      realwidth = 8 * width ∨ ∀ y, img.Contains (xx + realwidth) y → yy ≤ y → y < yy + height →
        img.pixel (xx + realwidth) y =
          glyphColour xx yy fidx bidx bmp width height (xx + realwidth) y := by
  have hout := painting_imgPackedBitmap signed img xx yy fidx bidx bmp width height realwidth
  have hmem (x y : ℤ) (hxy : img.Contains x y) :
      (x, y) ∈ glyphCells img xx yy width height realwidth ↔ _ :=
    mem_glyphCells_iff hreal.2 hxy
  constructor
  · intro hdraws
    refine or_iff_not_imp_left.mpr fun hlast y hxy hlo hhi ↦ ?_
    have hcell : (xx + realwidth, y) ∈ glyphCells img xx yy width height realwidth :=
      (hmem _ _ hxy).mpr (.inr ⟨⟨⟨rfl, hreal.1.le⟩, by omega⟩, hlo, hhi⟩)
    rw [← hout.drawn _ _ hxy hcell]
    exact (hdraws.others _ _ hxy fun h ↦ by unfold OnGlyph at h; omega).symm
  · intro hspare
    refine ⟨fun x y hxy hglyph ↦ hout.drawn x y hxy ((hmem x y hxy).mpr (.inl hglyph)),
      fun x y hxy hglyph ↦ ?_⟩
    by_cases hcell : (x, y) ∈ glyphCells img xx yy width height realwidth
    · obtain ⟨⟨⟨rfl, -⟩, hlt⟩, hlo, hhi⟩ := ((hmem x y hxy).mp hcell).resolve_left hglyph
      rw [hout.drawn _ _ hxy hcell]
      exact (hspare.resolve_left (by omega) y hxy hlo hhi).symm
    · exact hout.kept x y hxy hcell

/-- An empty image of two pixels in a row. -/
def blankPair : Image where
  width := 2
  height := 1
  bytes := fun _ ↦ 0
  written := []

/-- A bitmap of one byte that is drawn in full. -/
theorem drawsGlyph_full :
    DrawsGlyph blankPair 0 0 1 2 (fun _ ↦ 0x80) 1 1 8
      (imgPackedBitmap true blankPair 0 0 1 2 (fun _ ↦ 0x80) 1 1 8) :=
  (imgPackedBitmap_drawsGlyph_iff true blankPair 0 0 1 2 (fun _ ↦ 0x80) 1 1 8
    (by decide)).mpr (.inl rfl)

/-- A bitmap of one byte and one column: the pixel behind it gets the background colour. -/
theorem not_drawsGlyph_oneColumn :
    ¬DrawsGlyph blankPair 0 0 1 2 (fun _ ↦ 0x80) 1 1 1
      (imgPackedBitmap true blankPair 0 0 1 2 (fun _ ↦ 0x80) 1 1 1) := by
  intro hdraws
  have hxy : blankPair.Contains 1 0 := by
    unfold Image.Contains
    decide
  have hcell : (1, 0) ∈ glyphCells blankPair 0 0 1 1 1 :=
    (mem_glyphCells_iff (by decide) hxy).mpr (.inr (by decide))
  have hdrawn := (painting_imgPackedBitmap true blankPair 0 0 1 2 (fun _ ↦ 0x80) 1 1 1).drawn 1 0
    hxy hcell
  have hkept := hdraws.others 1 0 hxy fun h ↦ by unfold OnGlyph at h; omega
  rw [hdrawn] at hkept
  exact absurd hkept (by decide)

end Katmai.Rmimage256
