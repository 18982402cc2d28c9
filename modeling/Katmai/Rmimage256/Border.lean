import Katmai.Rmimage256.Image

/-!
# The border of a figure

`imgBorder` is to give the border colour to each pixel near a pixel of the figure's colour `fc`. It
stores into the image it scans, but never a pixel that reads as `fc`, so that what it looks for
stays as it was (`Outlining`). The loops around a pixel end with one store or none
(`borderPixel_eq`). A pixel is compared as a plain `char` with an `int` between 0 and 255: where
`char` has a sign, no pixel equals a colour from 128 on (`imgBorder_drawsBorder_iff`).
-/

set_option autoImplicit false
set_option relaxedAutoImplicit false

namespace Katmai.Rmimage256

open Foundation

variable {signed : Bool} {fc bc bw x y i j : ℤ} {img : Image}

/-! ### The loops around a pixel -/

/-- The condition that the innermost loop looks for. -/
def Hits (signed : Bool) (fc bw x y i j : ℤ) (img : Image) : Prop :=
  (0 ≤ y + j ∧ y + j < img.height) ∧ (0 < (i.natAbs + j.natAbs : ℤ) ∧ i.natAbs + j.natAbs ≤ bw) ∧
    charValue signed (img.pixel (x + i) (y + j)) = fc

/-- A pixel of the colour, as a `char`, at a distance from 1 to `bw`. -/
def Near (signed : Bool) (fc bw : ℤ) (img : Image) (x y : ℤ) : Prop :=
  ∃ i j : ℤ, img.Contains (x + i) (y + j) ∧
    (0 < (i.natAbs + j.natAbs : ℤ) ∧ i.natAbs + j.natAbs ≤ bw) ∧
      charValue signed (img.pixel (x + i) (y + j)) = fc

theorem scanColumn_of_hits (hj : j ≤ bw) (hhits : Hits signed fc bw x y i j img) :
    scanColumn signed fc bc bw x y i j img = (true, img.put (x + y * img.width) (toChar bc)) := by
  obtain ⟨⟨hlo, hhi⟩, ⟨hpos, hle⟩, hfc⟩ := hhits
  rw [scanColumn, if_pos hj, if_neg (by omega), if_neg (by omega)]
  simp only
  rw [if_neg (by omega), if_neg (by omega)]
  exact if_pos hfc

theorem scanColumn_of_not_hits (hj : j ≤ bw) (hhits : ¬Hits signed fc bw x y i j img) :
    scanColumn signed fc bc bw x y i j img = scanColumn signed fc bc bw x y i (j + 1) img := by
  rw [scanColumn, if_pos hj]
  simp only
  split_ifs with hlo hhi hzero hfar hfc
  · rfl
  · rfl
  · rfl
  · rfl
  · exact absurd ⟨⟨by omega, by omega⟩, ⟨by omega, by omega⟩, hfc⟩ hhits
  · rfl

/-- The innermost loop finds a pixel of the colour if there is one, and stores once. -/
theorem scanColumn_of_exists (hfound : ∃ k, j ≤ k ∧ k ≤ bw ∧ Hits signed fc bw x y i k img) :
    scanColumn signed fc bc bw x y i j img = (true, img.put (x + y * img.width) (toChar bc)) := by
  obtain ⟨k, hjk, hk, hhits⟩ := hfound
  obtain ⟨n, rfl⟩ := Int.le.dest hjk
  induction n generalizing j with
  | zero =>
    rw [Int.natCast_zero, Int.add_zero] at hk hhits
    exact scanColumn_of_hits hk hhits
  | succ n ih =>
    by_cases hhere : Hits signed fc bw x y i j img
    · exact scanColumn_of_hits (by omega) hhere
    · rw [scanColumn_of_not_hits (by omega) hhere]
      have hnext : j + ((n + 1 : ℕ) : ℤ) = j + 1 + n := by omega
      rw [hnext] at hk hhits
      exact ih (by omega) hk hhits

theorem scanColumn_of_forall (hnone : ∀ k, j ≤ k → k ≤ bw → ¬Hits signed fc bw x y i k img) :
    scanColumn signed fc bc bw x y i j img = (false, img) := by
  induction hn : (bw + 1 - j).toNat generalizing j with
  | zero => rw [scanColumn, if_neg (by omega)]
  | succ n ih =>
    rw [scanColumn_of_not_hits (by omega) (hnone j le_rfl (by omega))]
    exact ih (fun k hk ↦ hnone k (by omega)) (by omega)

/-- A round of the outer loop that skips its column, or finds nothing in it. -/
theorem scanNeighbours_of_forall_not (hi : i ≤ bw) (hnone : (0 ≤ x + i ∧ x + i < img.width) →
    ∀ k, -bw ≤ k → k ≤ bw → ¬Hits signed fc bw x y i k img) :
    scanNeighbours signed fc bc bw x y i img = scanNeighbours signed fc bc bw x y (i + 1) img := by
  rw [scanNeighbours, if_pos hi]
  split_ifs with hlo hhi
  · rfl
  · rfl
  · rw [scanColumn_of_forall (hnone ⟨by omega, by omega⟩)]
    rfl

/-- A round of the outer loop that finds a pixel is its last. -/
theorem scanNeighbours_of_exists_hits (hi : i ≤ bw) (hx : 0 ≤ x + i ∧ x + i < img.width)
    (hfound : ∃ k, -bw ≤ k ∧ k ≤ bw ∧ Hits signed fc bw x y i k img) :
    scanNeighbours signed fc bc bw x y i img = img.put (x + y * img.width) (toChar bc) := by
  rw [scanNeighbours, if_pos hi, if_neg (by omega), if_neg (by omega),
    scanColumn_of_exists hfound]
  simp only [if_true]
  rw [scanNeighbours, if_neg (by omega)]

theorem scanNeighbours_of_near (hnear : ∃ k, i ≤ k ∧ k ≤ bw ∧ (0 ≤ x + k ∧ x + k < img.width) ∧
    ∃ l, -bw ≤ l ∧ l ≤ bw ∧ Hits signed fc bw x y k l img) :
    scanNeighbours signed fc bc bw x y i img = img.put (x + y * img.width) (toChar bc) := by
  obtain ⟨k, hik, hk, hx, hfound⟩ := hnear
  obtain ⟨n, rfl⟩ := Int.le.dest hik
  induction n generalizing i with
  | zero =>
    rw [Int.natCast_zero, Int.add_zero] at hk hx hfound
    exact scanNeighbours_of_exists_hits hk hx hfound
  | succ n ih =>
    by_cases hhere : (0 ≤ x + i ∧ x + i < img.width) ∧
        ∃ l, -bw ≤ l ∧ l ≤ bw ∧ Hits signed fc bw x y i l img
    · exact scanNeighbours_of_exists_hits (by omega) hhere.1 hhere.2
    · rw [scanNeighbours_of_forall_not (by omega) fun hx l hlo hhi hhits ↦
        hhere ⟨hx, l, hlo, hhi, hhits⟩]
      have hnext : i + ((n + 1 : ℕ) : ℤ) = i + 1 + n := by omega
      rw [hnext] at hk hx hfound
      exact ih (by omega) hk hx hfound

theorem scanNeighbours_of_not_near (hnear : ¬Near signed fc bw img x y) :
    scanNeighbours signed fc bc bw x y i img = img := by
  induction hn : (bw + 1 - i).toNat generalizing i with
  | zero => rw [scanNeighbours, if_neg (by omega)]
  | succ n ih =>
    rw [scanNeighbours_of_forall_not (by omega) fun hx l _ _ hhits ↦
      hnear ⟨i, l, ⟨hx, hhits.1⟩, hhits.2⟩]
    exact ih (by omega)

/-- The body of the loops over the rectangle: one store or none. -/
theorem borderPixel_of_near (hfc : charValue signed (img.pixel x y) ≠ fc)
    (hbc : charValue signed (img.pixel x y) ≠ bc) (hnear : Near signed fc bw img x y) :
    borderPixel signed fc bc bw x y img = img.put (x + y * img.width) (toChar bc) := by
  obtain ⟨i, j, ⟨hx, hy⟩, ⟨hpos, hle⟩, hcolour⟩ := hnear
  refine (if_neg hfc).trans ((if_neg hbc).trans (scanNeighbours_of_near ?_))
  exact ⟨i, by omega, by omega, hx, j, by omega, by omega, hy, ⟨hpos, hle⟩, hcolour⟩

theorem borderPixel_of_not (hnot : charValue signed (img.pixel x y) = fc ∨
    charValue signed (img.pixel x y) = bc ∨ ¬Near signed fc bw img x y) :
    borderPixel signed fc bc bw x y img = img := by
  rw [borderPixel]
  split_ifs with hfc hbc
  · rfl
  · rfl
  · exact scanNeighbours_of_not_near ((hnot.resolve_left hfc).resolve_left hbc)

/-! ### Colours of a pixel -/

theorem toChar_toNat {c : ℤ} (hc : 0 ≤ c ∧ c ≤ 255) : ((toChar c).toNat : ℤ) = c := by
  rw [toChar, BitVec.toNat_ofInt]
  omega

/-- A pixel that reads as a colour is that colour. -/
theorem eq_toChar_of_charValue {b : BitVec 8} {c : ℤ} (hc : 0 ≤ c ∧ c ≤ 255)
    (hvalue : charValue signed b = c) : b = toChar c := by
  have hnat := toChar_toNat hc
  have htoInt := BitVec.toInt_eq_toNat_cond b
  refine BitVec.eq_of_toNat_eq ?_
  unfold charValue at hvalue
  split_ifs at hvalue htoInt <;> omega

theorem charValue_toChar_iff {b : BitVec 8} {c : ℤ} (hc : 0 ≤ c ∧ c ≤ 255)
    (hunsigned : signed = false ∨ c < 128) : charValue signed b = c ↔ b = toChar c := by
  refine ⟨eq_toChar_of_charValue hc, ?_⟩
  rintro rfl
  have hnat := toChar_toNat hc
  cases signed with
  | false => exact hnat
  | true =>
    have hlt : c < 128 := hunsigned.resolve_left Bool.noConfusion
    change (toChar c).toInt = c
    rw [BitVec.toInt_eq_toNat_cond, if_pos (by omega)]
    exact hnat

/-- A signed `char` is below 128. -/
theorem charValue_lt (b : BitVec 8) : charValue true b < 128 := by
  have htoInt := BitVec.toInt_lt (x := b)
  simpa [charValue] using htoInt

theorem charValue_toChar_ne {c : ℤ} (hfc : 0 ≤ fc) (hc : 0 ≤ c ∧ c ≤ 255) (hne : fc ≠ c) :
    charValue signed (toChar c) ≠ fc := by
  have hnat := toChar_toNat hc
  have htoInt := BitVec.toInt_eq_toNat_cond (toChar c)
  unfold charValue
  split_ifs at htoInt ⊢ <;> omega

/-! ### The whole rectangle -/

/-- A pixel that is not of the colour, as a `char`, but near one that is. -/
def Outlined (signed : Bool) (fc bw : ℤ) (img : Image) (p : ℤ × ℤ) : Prop :=
  charValue signed (img.pixel p.1 p.2) ≠ fc ∧ Near signed fc bw img p.1 p.2

/-- The image while the loops are running: the pixels that are done have the border colour if they
are outlined in the image in front of the loops, and all others are as they were. -/
structure Outlining (signed : Bool) (fc bc bw : ℤ) (img : Image) (done : Set (ℤ × ℤ))
    (out : Image) : Prop where
  width : out.width = img.width
  height : out.height = img.height
  drawn : ∀ a b, img.Contains a b → (a, b) ∈ done → Outlined signed fc bw img (a, b) →
    out.pixel a b = toChar bc
  kept : ∀ a b, img.Contains a b → ¬((a, b) ∈ done ∧ Outlined signed fc bw img (a, b)) →
    out.pixel a b = img.pixel a b

theorem Outlining.contains_iff {done : Set (ℤ × ℤ)} {out : Image}
    (hout : Outlining signed fc bc bw img done out) {a b : ℤ} :
    out.Contains a b ↔ img.Contains a b := by
  rw [Image.Contains, Image.Contains, hout.width, hout.height]

section Outlining

variable {done : Set (ℤ × ℤ)} {out : Image} (hfc : 0 ≤ fc) (hbc : 0 ≤ bc ∧ bc ≤ 255)
  (hne : fc ≠ bc) (hout : Outlining signed fc bc bw img done out)

include hfc hbc hne hout

/-- The pixels that read as the colour stay the same. -/
theorem Outlining.reads_iff {a b : ℤ} (hab : img.Contains a b) :
    charValue signed (out.pixel a b) = fc ↔ charValue signed (img.pixel a b) = fc := by
  by_cases hdrawn : (a, b) ∈ done ∧ Outlined signed fc bw img (a, b)
  · rw [hout.drawn a b hab hdrawn.1 hdrawn.2]
    exact iff_of_false (charValue_toChar_ne hfc hbc hne) hdrawn.2.1
  · rw [hout.kept a b hab hdrawn]

theorem Outlining.near_iff : Near signed fc bw out x y ↔ Near signed fc bw img x y := by
  unfold Near
  refine exists_congr fun i ↦ exists_congr fun j ↦ ?_
  rw [hout.contains_iff]
  exact and_congr_right fun hij ↦ and_congr_right fun _ ↦ hout.reads_iff hfc hbc hne hij

/-- One more pixel. -/
theorem Outlining.borderPixel (hxy : img.Contains x y) (hdone : (x, y) ∉ done) :
    Outlining signed fc bc bw img (insert (x, y) done)
      (Rmimage256.borderPixel signed fc bc bw x y out) := by
  have hsame : out.pixel x y = img.pixel x y := hout.kept x y hxy fun h ↦ hdone h.1
  have hnear := hout.near_iff (x := x) (y := y) hfc hbc hne
  by_cases hstore : charValue signed (out.pixel x y) = fc ∨
      charValue signed (out.pixel x y) = bc ∨ ¬Near signed fc bw out x y
  · rw [borderPixel_of_not hstore]
    refine ⟨hout.width, hout.height, fun a b hab hmem houtlined ↦ ?_, fun a b hab hnot ↦ ?_⟩
    · rcases Set.mem_insert_iff.mp hmem with heq | hmem
      · obtain ⟨rfl, rfl⟩ := Prod.mk.inj heq
        have hvalue := hstore.resolve_left (hsame.symm ▸ houtlined.1)
        exact eq_toChar_of_charValue hbc (hvalue.resolve_right fun h ↦ h (hnear.mpr houtlined.2))
      · exact hout.drawn a b hab hmem houtlined
    · exact hout.kept a b hab fun h ↦ hnot ⟨Set.mem_insert_of_mem _ h.1, h.2⟩
  · obtain ⟨hnotfc, hnotbc, hisNear⟩ := not_or.mp hstore |>.imp_right not_or.mp
    have hisNear := not_not.mp hisNear
    have hput (a b : ℤ) (hab : img.Contains a b) :=
      pixel_put (hout.contains_iff.mpr hxy) (hout.contains_iff.mpr hab) (toChar bc)
    rw [borderPixel_of_near hnotfc hnotbc hisNear]
    refine ⟨hout.width, hout.height, fun a b hab hmem houtlined ↦ ?_, fun a b hab hnot ↦ ?_⟩
    · rw [hput a b hab]
      split_ifs with heq
      · rfl
      · exact hout.drawn a b hab (Set.mem_of_mem_insert_of_ne hmem heq) houtlined
    · have hother : (a, b) ≠ (x, y) := by
        intro heq
        refine hnot ⟨heq ▸ Set.mem_insert _ _, ?_⟩
        rw [heq]
        exact ⟨hsame ▸ hnotfc, hnear.mp hisNear⟩
      rw [hput a b hab, if_neg hother]
      exact hout.kept a b hab fun h ↦ hnot ⟨Set.mem_insert_of_mem _ h.1, h.2⟩

end Outlining

/-- The pixels of the image in a rectangle. -/
def InRectangle (img : Image) (xx yy xl yl x y : ℤ) : Prop :=
  img.Contains x y ∧ (xx ≤ x ∧ x < xx + xl) ∧ yy ≤ y ∧ y < yy + yl

/-- All pixels of the rectangle that are outlined, as `char`s, get the border colour. -/
theorem outlining_imgBorder (signed : Bool) (img : Image) (xx yy xl yl fc bc bw : ℤ) (hfc : 0 ≤ fc)
    (hbc : 0 ≤ bc ∧ bc ≤ 255) (hne : fc ≠ bc) :
    Outlining signed fc bc bw img {p | InRectangle img xx yy xl yl p.1 p.2}
      (imgBorder signed img xx yy xl yl fc bc bw) := by
  have hcells : {p : ℤ × ℤ | InRectangle img xx yy xl yl p.1 p.2} =
      cells (if xx > 0 then xx else 0) (if xx + xl < img.width then xx + xl else img.width)
        (if yy > 0 then yy else 0) (if yy + yl < img.height then yy + yl else img.height) := by
    ext ⟨a, b⟩
    simp only [cells, InRectangle, Image.Contains, Set.mem_ofPred_eq]
    split_ifs <;> omega
  rw [hcells]
  refine raster_induct ⟨rfl, rfl, fun _ _ _ h ↦ absurd h (Set.notMem_empty _), fun _ _ _ _ ↦ rfl⟩ ?_
  intro done x y out hmem hdone hout
  rw [← hcells] at hmem
  exact hout.borderPixel hfc hbc hne hmem.1 hdone

/-! ### The colours of the claim -/

/-- A pixel of another colour with one of the colour at a distance from 1 to `bw`. -/
def OnBorder (fc bw : ℤ) (img : Image) (x y : ℤ) : Prop :=
  img.pixel x y ≠ toChar fc ∧ ∃ i j : ℤ, img.Contains (x + i) (y + j) ∧
    (0 < (i.natAbs + j.natAbs : ℤ) ∧ i.natAbs + j.natAbs ≤ bw) ∧
      img.pixel (x + i) (y + j) = toChar fc

/-- The outline is drawn: in the rectangle, exactly the pixels of the border colour and those on the
border have the border colour, and every other pixel is as it was. -/
structure DrawsBorder (img : Image) (xx yy xl yl fc bc bw : ℤ) (out : Image) : Prop where
  inside : ∀ x y, InRectangle img xx yy xl yl x y →
    (out.pixel x y = toChar bc ↔ img.pixel x y = toChar bc ∨ OnBorder fc bw img x y)
  others : ∀ x y, img.Contains x y → ¬(InRectangle img xx yy xl yl x y ∧
    (img.pixel x y = toChar bc ∨ OnBorder fc bw img x y)) → out.pixel x y = img.pixel x y

theorem outlined_iff (hfc : 0 ≤ fc ∧ fc ≤ 255) (hunsigned : signed = false ∨ fc < 128) :
    Outlined signed fc bw img (x, y) ↔ OnBorder fc bw img x y := by
  simp only [Outlined, OnBorder, Near, charValue_toChar_iff hfc hunsigned, ne_eq]

theorem not_outlined (hsigned : 128 ≤ fc) : ¬Outlined true fc bw img (x, y) := by
  rintro ⟨-, i, j, -, -, hvalue⟩
  exact absurd (charValue_lt _) (not_lt.mpr (hvalue.symm ▸ hsigned))

/-- For every image and rectangle, border width and pair of colours: the outline is drawn if and
only if a plain `char` has no sign, or the colour of the figure is below 128, or there is nothing to
draw. -/
theorem imgBorder_drawsBorder_iff (signed : Bool) (img : Image) (xx yy xl yl fc bc bw : ℤ)
    (hfc : 0 ≤ fc ∧ fc ≤ 255) (hbc : 0 ≤ bc ∧ bc ≤ 255) (hne : fc ≠ bc) :
    DrawsBorder img xx yy xl yl fc bc bw (imgBorder signed img xx yy xl yl fc bc bw) ↔
      signed = false ∨ fc < 128 ∨ ∀ x y, InRectangle img xx yy xl yl x y →
        OnBorder fc bw img x y → img.pixel x y = toChar bc := by
  have hout := outlining_imgBorder signed img xx yy xl yl fc bc bw hfc.1 hbc hne
  by_cases hunsigned : signed = false ∨ fc < 128
  · refine iff_of_true ⟨fun x y hrect ↦ ?_, fun x y hxy hnot ↦ ?_⟩ (or_assoc.mp (.inl hunsigned))
    · by_cases hborder : OnBorder fc bw img x y
      · rw [hout.drawn x y hrect.1 hrect ((outlined_iff hfc hunsigned).mpr hborder)]
        exact iff_of_true rfl (.inr hborder)
      · rw [hout.kept x y hrect.1 fun h ↦ hborder ((outlined_iff hfc hunsigned).mp h.2)]
        exact (or_iff_left hborder).symm
    · exact hout.kept x y hxy fun h ↦ hnot ⟨h.1, .inr ((outlined_iff hfc hunsigned).mp h.2)⟩
  · obtain ⟨hsigned, hhigh⟩ := not_or.mp hunsigned
    obtain rfl : signed = true := Bool.eq_true_of_not_eq_false hsigned
    have hkept (x y : ℤ) (hxy : img.Contains x y) :
        (imgBorder true img xx yy xl yl fc bc bw).pixel x y = img.pixel x y :=
      hout.kept x y hxy fun h ↦ not_outlined (not_lt.mp hhigh) h.2
    constructor
    · intro hdraws
      refine .inr (.inr fun x y hrect hborder ↦ ?_)
      rw [← hkept x y hrect.1]
      exact (hdraws.inside x y hrect).mpr (.inr hborder)
    · intro hnothing
      have hnothing := (hnothing.resolve_left hsigned).resolve_left hhigh
      refine ⟨fun x y hrect ↦ ?_, fun x y hxy _ ↦ hkept x y hxy⟩
      rw [hkept x y hrect.1]
      exact ⟨.inl, fun h ↦ h.elim id (hnothing x y hrect)⟩

/-- Two pixels in a row, the first of a colour. -/
def pairImage (colour : BitVec 8) : Image where
  width := 2
  height := 1
  bytes := fun i ↦ if i = imageOffset then colour else 0
  written := []

/-- A figure of colour 100. -/
theorem drawsBorder_pairImage :
    DrawsBorder (pairImage 100) 0 0 2 1 100 1 1 (imgBorder true (pairImage 100) 0 0 2 1 100 1 1) :=
  (imgBorder_drawsBorder_iff true (pairImage 100) 0 0 2 1 100 1 1 (by decide) (by decide)
    (by decide)).mpr (.inr (.inl (by decide)))

/-- A figure of colour 200, where `char` has a sign: the pixel next to it is not changed. -/
theorem not_drawsBorder_pairImage :
    ¬DrawsBorder (pairImage 200) 0 0 2 1 200 1 1
      (imgBorder true (pairImage 200) 0 0 2 1 200 1 1) := by
  intro hdraws
  have hrect : InRectangle (pairImage 200) 0 0 2 1 1 0 := by
    unfold InRectangle Image.Contains
    decide
  have hborder : OnBorder 200 1 (pairImage 200) 1 0 :=
    ⟨by decide, -1, 0, by unfold Image.Contains; decide, by decide, by decide⟩
  have hout := outlining_imgBorder true (pairImage 200) 0 0 2 1 200 1 1 (by decide) (by decide)
    (by decide)
  have hkept := hout.kept 1 0 hrect.1 fun h ↦ not_outlined (by decide) h.2
  have hdrawn := (hdraws.inside 1 0 hrect).mpr (.inr hborder)
  rw [hkept] at hdrawn
  exact absurd hdrawn (by decide)

end Katmai.Rmimage256
