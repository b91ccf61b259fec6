import MemoryLeak.Images.Equalization
import Mathlib.Order.Bounds.Defs

/-!
# Contrast

`linearContrast` stretches the pixels between the extremes of an image to `0` and `255`, and
`linearContrastSaturation` those between two values that it is given. The search for the smallest
pixel starts at the number of channels: it finds no pixel above that number.
-/
namespace MemoryLeak.Images
open MemoryLeak.Loops MemoryLeak.Cluster

variable {rows cols : ℕ}

def maxPixel (im : Image rows cols) : Option ℤ :=
  eachPixel (fun maxi row col => some (max (im.getPixelVal row col) maxi)) 0

def minPixel (im : Image rows cols) : Option ℤ :=
  eachPixel (fun mini row col => some (min (im.getPixelVal row col) mini)) im.depth

def calculateContrast (im : Image rows cols) : Option ℤ := do
  let mini ← minPixel im
  let maxi ← maxPixel im
  intOf (maxi - mini)

/-- `255 * (pixel - low) / range`. -/
def stretch (low range pixel : ℤ) : Option ℤ := do
  let above ← intOf (pixel - low)
  let product ← intOf (255 * above)
  intDiv product range

/-- `linearContrast`, with the image that it makes. -/
def linearContrast (im : Image rows cols) : Option (Image rows cols) := do
  let mini ← minPixel im
  let contrast ← calculateContrast im
  eachPixel (fun newImage row col =>
      (stretch mini contrast (im.getPixelVal row col)).map fun val =>
        newImage.setPixelVal row col val)
    (Image.ofSize rows cols im.depth)

/-- `val > 255 ? 255 : max(val, 0)`, for the stretched value. -/
def saturate (sMin sMax pixel : ℤ) : Option ℤ := do
  let range ← intOf (sMax - sMin)
  let val ← stretch sMin range pixel
  some (if 255 < val then 255 else max val 0)

/-- How `linearContrastSaturation` ends: with `exit(1)`, or with the two images it shows. -/
inductive Saturated (rows cols : ℕ) where
  | invalid
  | shown (im newImage : Image rows cols)

def linearContrastSaturation (im : Image rows cols) (sMin sMax : ℤ) :
    Option (Saturated rows cols) := do
  let mini ← minPixel im
  let maxi ← maxPixel im
  if sMax < sMin ∨ sMin < mini ∨ maxi < sMax then some .invalid
  else do
    let im' ← eachPixel (fun im row col =>
      (saturate sMin sMax (im.getPixelVal row col)).map fun val => im.setPixelVal row col val) im
    some (.shown im' (Image.ofSize rows cols im.depth))

/-! ### The extremes -/

section
variable {α : Type*} [LinearOrder α]

/-- The greatest value of a list and a start value. -/
theorem foldl_max_spec (l : List α) (a : α) :
    a ≤ l.foldl (fun m v => max v m) a ∧ (∀ v ∈ l, v ≤ l.foldl (fun m v => max v m) a) ∧
      (l.foldl (fun m v => max v m) a = a ∨ l.foldl (fun m v => max v m) a ∈ l) := by
  induction l generalizing a with
  | nil => exact ⟨le_rfl, fun v hv => absurd hv List.not_mem_nil, .inl rfl⟩
  | cons w l ih =>
    obtain ⟨hstart, hall, hsome⟩ := ih (max w a)
    rw [List.foldl_cons]
    refine ⟨(le_max_right w a).trans hstart, ?_, ?_⟩
    · intro v hv
      rcases List.mem_cons.mp hv with rfl | hv
      · exact (le_max_left v a).trans hstart
      · exact hall v hv
    · rcases hsome with heq | hmem
      · rw [heq]
        rcases le_total w a with hle | hle
        · exact .inl (max_eq_right hle)
        · rw [max_eq_left hle]
          exact .inr List.mem_cons_self
      · exact .inr (List.mem_cons_of_mem w hmem)

theorem foldl_min_spec (l : List α) (a : α) :
    l.foldl (fun m v => min v m) a ≤ a ∧ (∀ v ∈ l, l.foldl (fun m v => min v m) a ≤ v) ∧
      (l.foldl (fun m v => min v m) a = a ∨ l.foldl (fun m v => min v m) a ∈ l) :=
  foldl_max_spec (α := αᵒᵈ) l a

end

/-- The pixels of an image that is not empty are bytes. -/
structure BytePixels (im : Image rows cols) : Prop where
  nonempty : im.pixels ≠ []
  bytes : ∀ v ∈ im.pixels, 0 ≤ v ∧ v ≤ 255

theorem maxPixel_spec {im : Image rows cols} (h : BytePixels im) :
    ∃ maxi, maxPixel im = some maxi ∧ IsGreatest {v | v ∈ im.pixels} maxi := by
  obtain ⟨hstart, hall, hsome⟩ := foldl_max_spec im.pixels 0
  refine ⟨_, ?_, ?_, hall⟩
  · rw [maxPixel, im.eachPixel_read fun maxi pixel => some (max pixel maxi)]
    exact List.foldlM_pure
  · rcases hsome with heq | hmem
    · obtain ⟨v, hv⟩ := List.exists_mem_of_ne_nil _ h.nonempty
      have hle := hall v hv
      have hnonneg := (h.bytes v hv).1
      have hv0 : v = im.pixels.foldl (fun m v => max v m) 0 := by omega
      rw [← hv0]
      exact hv
    · exact hmem

theorem minPixel_spec (im : Image rows cols) :
    ∃ mini, minPixel im = some mini ∧ mini ≤ im.depth ∧ (∀ v ∈ im.pixels, mini ≤ v) ∧
      (mini = im.depth ∨ mini ∈ im.pixels) := by
  refine ⟨_, ?_, foldl_min_spec im.pixels (im.depth : ℤ)⟩
  rw [minPixel, im.eachPixel_read fun mini pixel => some (min pixel mini)]
  exact List.foldlM_pure

/-- The smallest pixel is found if some pixel is not above the number of channels. -/
theorem minPixel_least_iff (im : Image rows cols) :
    (∃ mini, minPixel im = some mini ∧ IsLeast {v | v ∈ im.pixels} mini) ↔
      ∃ v ∈ im.pixels, v ≤ im.depth := by
  obtain ⟨mini, hmini, hdepth, hall, hsome⟩ := minPixel_spec im
  constructor
  · rintro ⟨mini', hmini', hmem, -⟩
    rw [hmini] at hmini'
    cases hmini'
    exact ⟨mini, hmem, hdepth⟩
  · rintro ⟨v, hv, hle⟩
    refine ⟨mini, hmini, ?_, hall⟩
    rcases hsome with heq | hmem
    · have hmin := hall v hv
      have hv' : v = mini := by omega
      exact hv' ▸ hv
    · exact hmem

/-! ### The stretched values -/

/-- `stretch` with whole numbers. -/
def stretched (low range pixel : ℤ) : ℤ := (255 * (pixel - low)).tdiv range

section
variable {low range v w x : ℤ}

theorem stretch_eq (hlow : 0 ≤ low ∧ low ≤ 255) (hv : 0 ≤ v ∧ v ≤ 255) (hrange : range ≠ 0) :
    stretch low range v = some (stretched low range v) := by
  have habove : intOf (v - low) = some (v - low) := intOf_eq (by omega) (by omega)
  have hproduct : intOf (255 * (v - low)) = some (255 * (v - low)) :=
    intOf_eq (by omega) (by omega)
  have hsmall := Int.natAbs_tdiv_le_natAbs (255 * (v - low)) range
  simp only [stretch, habove, hproduct, intDiv, if_neg hrange, bind, Option.bind_some]
  exact intOf_eq (by omega) (by omega)

theorem range_ne_zero (h : stretch low range v = some x) : range ≠ 0 := by
  obtain ⟨above, -, h⟩ := Option.bind_eq_some_iff.mp h
  obtain ⟨product, -, h⟩ := Option.bind_eq_some_iff.mp h
  rintro rfl
  cases h

theorem stretched_mono (hrange : 0 < range) (h : v ≤ w) :
    stretched low range v ≤ stretched low range w :=
  Int.tdiv_le_tdiv hrange (by omega)

theorem stretched_low (low range : ℤ) : stretched low range low = 0 := by
  rw [stretched, sub_self, Int.mul_zero, Int.zero_tdiv]

theorem stretched_high (hrange : 0 < range) (h : v - low = range) :
    stretched low range v = 255 := by
  rw [stretched, h]
  exact Int.mul_tdiv_cancel 255 hrange.ne'

end

/-- What `saturate` makes of the stretched values. -/
def saturated (sMin sMax pixel : ℤ) : ℤ :=
  if 255 < stretched sMin (sMax - sMin) pixel then 255
  else max (stretched sMin (sMax - sMin) pixel) 0

section
variable {sMin sMax v w x : ℤ}

theorem saturate_eq (hmin : 0 ≤ sMin) (hlt : sMin < sMax) (hmax : sMax ≤ 255)
    (hv : 0 ≤ v ∧ v ≤ 255) : saturate sMin sMax v = some (saturated sMin sMax v) := by
  have hrange : intOf (sMax - sMin) = some (sMax - sMin) := intOf_eq (by omega) (by omega)
  have hval := stretch_eq ⟨hmin, by omega⟩ hv (show sMax - sMin ≠ 0 by omega)
  simp only [saturate, hrange, hval, bind, Option.bind_some, saturated]

theorem sMax_ne_sMin (h : saturate sMin sMax v = some x) : sMin ≠ sMax := by
  obtain ⟨range, hrange, h⟩ := Option.bind_eq_some_iff.mp h
  obtain ⟨val, hval, -⟩ := Option.bind_eq_some_iff.mp h
  unfold intOf at hrange
  split_ifs at hrange
  cases hrange
  have hne := range_ne_zero hval
  omega

theorem saturated_mono (hlt : sMin < sMax) (h : v ≤ w) :
    saturated sMin sMax v ≤ saturated sMin sMax w := by
  have hmono : stretched sMin (sMax - sMin) v ≤ stretched sMin (sMax - sMin) w :=
    stretched_mono (by omega) h
  unfold saturated
  split_ifs <;> omega

theorem saturated_bounds (sMin sMax v : ℤ) :
    0 ≤ saturated sMin sMax v ∧ saturated sMin sMax v ≤ 255 := by
  unfold saturated
  split_ifs <;> omega

end

/-! ### Both filters -/

/-- A filter that ends has computed a value for some pixel. -/
theorem eachPixel_some {value : Image rows cols → Fin rows → Fin cols → Option ℤ}
    {im start new : Image rows cols} (hne : im.pixels ≠ [])
    (h : eachPixel (fun cur row col => (value cur row col).map fun x =>
      cur.setPixelVal row col x) start = some new) :
    ∃ cur row col x, value cur row col = some x := by
  obtain ⟨v, hv⟩ := List.exists_mem_of_ne_nil _ hne
  obtain ⟨p, hp, -⟩ := List.mem_map.mp hv
  rw [eachPixel_eq] at h
  obtain ⟨cur, next, hturn⟩ := foldlM_taken h hp
  obtain ⟨x, hx, -⟩ := Option.map_eq_some_iff.mp hturn
  exact ⟨cur, p.1, p.2, x, hx⟩

/-- The new pixels are bytes, in the order of the old ones. -/
structure Maps (im new : Image rows cols) : Prop where
  mono : ∀ row col row' col', im.getPixelVal row col ≤ im.getPixelVal row' col' →
    new.getPixelVal row col ≤ new.getPixelVal row' col'
  bytes : ∀ row col, 0 ≤ new.getPixelVal row col ∧ new.getPixelVal row col ≤ 255

/-- An image that has its extremes, and these differ. -/
theorem linearContrast_maps {im : Image rows cols} (h : BytePixels im) {mini maxi : ℤ}
    (hmini : minPixel im = some mini) (hmaxi : maxPixel im = some maxi)
    (hleast : IsLeast {v | v ∈ im.pixels} mini) (hgreatest : IsGreatest {v | v ∈ im.pixels} maxi)
    (hlt : mini < maxi) :
    linearContrast im =
      some ⟨im.depth, fun row col => stretched mini (maxi - mini) (im.getPixelVal row col)⟩ := by
  have hlow := h.bytes mini hleast.1
  have hhigh := h.bytes maxi hgreatest.1
  have hcontrast : calculateContrast im = some (maxi - mini) := by
    simp only [calculateContrast, hmini, hmaxi, bind, Option.bind_some]
    exact intOf_eq (by omega) (by omega)
  simp only [linearContrast, hmini, hcontrast, bind, Option.bind_some]
  apply Image.eachPixel_write
  intro row col
  exact stretch_eq hlow (h.bytes _ (im.getPixelVal_mem row col)) (by omega)

theorem linearContrast_ne_zero {im new : Image rows cols} (hne : im.pixels ≠ []) {mini maxi : ℤ}
    (hmini : minPixel im = some mini) (hmaxi : maxPixel im = some maxi)
    (h : linearContrast im = some new) : maxi ≠ mini := by
  obtain ⟨low, hlow, h⟩ := Option.bind_eq_some_iff.mp h
  obtain ⟨contrast, hcontrast, h⟩ := Option.bind_eq_some_iff.mp h
  obtain ⟨-, row, col, x, hx⟩ := eachPixel_some hne h
  have hrange := range_ne_zero hx
  simp only [calculateContrast, hmini, hmaxi, bind, Option.bind_some, intOf] at hcontrast
  split_ifs at hcontrast
  cases hcontrast
  omega

/-- The values that `linearContrastSaturation` lets pass. -/
def Passes (im : Image rows cols) (sMin sMax : ℤ) : Prop :=
  ∃ mini maxi, minPixel im = some mini ∧ maxPixel im = some maxi ∧
    sMin ≤ sMax ∧ mini ≤ sMin ∧ sMax ≤ maxi

theorem linearContrastSaturation_pass {im : Image rows cols} {sMin sMax : ℤ}
    (h : Passes im sMin sMax) : linearContrastSaturation im sMin sMax =
      (eachPixel (fun im row col => (saturate sMin sMax (im.getPixelVal row col)).map fun val =>
        im.setPixelVal row col val) im).map fun im' =>
          .shown im' (Image.ofSize rows cols im.depth) := by
  obtain ⟨mini, maxi, hmini, hmaxi, hle, hlow, hhigh⟩ := h
  have hcheck : ¬ (sMax < sMin ∨ sMin < mini ∨ maxi < sMax) := by omega
  simp only [linearContrastSaturation, hmini, hmaxi, bind, Option.bind_some, if_neg hcheck]
  exact Option.map_eq_bind.symm

theorem linearContrastSaturation_maps {im : Image rows cols} (h : BytePixels im) {sMin sMax : ℤ}
    (hpass : Passes im sMin sMax) (hmin : 0 ≤ sMin) (hmax : sMax ≤ 255) (hlt : sMin < sMax) :
    linearContrastSaturation im sMin sMax =
      some (.shown ⟨im.depth, fun row col => saturated sMin sMax (im.getPixelVal row col)⟩
        (Image.ofSize rows cols im.depth)) := by
  have hpixels : ∀ v ∈ im.pixels, saturate sMin sMax v = some (saturated sMin sMax v) :=
    fun v hv => saturate_eq hmin hlt hmax (h.bytes v hv)
  rw [linearContrastSaturation_pass hpass, im.eachPixel_inPlace hpixels, Option.map_some]

theorem saturation_ne {im : Image rows cols} (hne : im.pixels ≠ []) {sMin sMax : ℤ}
    (hpass : Passes im sMin sMax) {r : Saturated rows cols}
    (h : linearContrastSaturation im sMin sMax = some r) : sMin ≠ sMax := by
  rw [linearContrastSaturation_pass hpass] at h
  obtain ⟨im', him', -⟩ := Option.map_eq_some_iff.mp h
  obtain ⟨cur, row, col, x, hx⟩ := eachPixel_some hne him'
  exact sMax_ne_sMin hx

/-- The values are bytes. -/
theorem Passes.bytes {im : Image rows cols} (h : BytePixels im) {sMin sMax mini maxi : ℤ}
    (hpass : Passes im sMin sMax) (hmini : minPixel im = some mini)
    (hmaxi : maxPixel im = some maxi) (hleast : mini ∈ im.pixels) (hgreatest : maxi ∈ im.pixels) :
    0 ≤ sMin ∧ sMax ≤ 255 := by
  obtain ⟨low, high, hlow, hhigh, -, hmin, hmax⟩ := hpass
  cases hlow.symm.trans hmini
  cases hhigh.symm.trans hmaxi
  exact ⟨(h.bytes mini hleast).1.trans hmin, hmax.trans (h.bytes maxi hgreatest).2⟩

/-- Two pixels of the image are different. -/
def Differ (im : Image rows cols) : Prop := ∃ v ∈ im.pixels, ∃ w ∈ im.pixels, v ≠ w

theorem Differ.lt {im : Image rows cols} (h : Differ im) {mini maxi : ℤ}
    (hleast : IsLeast {v | v ∈ im.pixels} mini)
    (hgreatest : IsGreatest {v | v ∈ im.pixels} maxi) : mini < maxi := by
  obtain ⟨v, hv, w, hw, hvw⟩ := h
  have hlow := hleast.2 hv
  have hlow' := hleast.2 hw
  have hhigh := hgreatest.2 hv
  have hhigh' := hgreatest.2 hw
  omega

/-- The extremes are found, no filter divides by zero, and the pixels of an image whose extremes
differ are stretched. -/
structure Stretches (im : Image rows cols) (sMin sMax : ℤ) : Prop where
  least : ∃ mini, minPixel im = some mini ∧ IsLeast {v | v ∈ im.pixels} mini
  greatest : ∃ maxi, maxPixel im = some maxi ∧ IsGreatest {v | v ∈ im.pixels} maxi
  linear : ∃ new, linearContrast im = some new ∧ (Differ im → Maps im new ∧ ∀ row col,
    (IsLeast {v | v ∈ im.pixels} (im.getPixelVal row col) → new.getPixelVal row col = 0) ∧
    (IsGreatest {v | v ∈ im.pixels} (im.getPixelVal row col) → new.getPixelVal row col = 255))
  saturation : ∃ im' new, linearContrastSaturation im sMin sMax = some (.shown im' new) ∧
    (Differ im → Maps im im')

theorem stretched_maps {im : Image rows cols} {mini maxi : ℤ}
    (hleast : IsLeast {v | v ∈ im.pixels} mini) (hgreatest : IsGreatest {v | v ∈ im.pixels} maxi)
    (hlt : mini < maxi) :
    Maps im ⟨im.depth, fun row col => stretched mini (maxi - mini) (im.getPixelVal row col)⟩ := by
  have hrange : 0 < maxi - mini := by omega
  constructor
  · intro row col row' col' hle
    exact stretched_mono hrange hle
  · intro row col
    have hmem := im.getPixelVal_mem row col
    constructor
    · rw [← stretched_low mini (maxi - mini)]
      exact stretched_mono hrange (hleast.2 hmem)
    · rw [← stretched_high hrange rfl]
      exact stretched_mono hrange (hgreatest.2 hmem)

/-- The filters work exactly where some pixel is not above the number of channels, two pixels are
different, and so are the two values. -/
theorem contrast_iff (im : Image rows cols) (h : BytePixels im) (sMin sMax : ℤ)
    (hpass : Passes im sMin sMax) : Stretches im sMin sMax ↔
      (∃ v ∈ im.pixels, v ≤ im.depth) ∧ Differ im ∧ sMin ≠ sMax := by
  obtain ⟨maxi, hmaxi, hgreatest⟩ := maxPixel_spec h
  constructor
  · intro hs
    obtain ⟨mini, hmini, hleast⟩ := hs.least
    obtain ⟨new, hnew, -⟩ := hs.linear
    obtain ⟨im', new', hshown, -⟩ := hs.saturation
    have hne := linearContrast_ne_zero h.nonempty hmini hmaxi hnew
    exact ⟨(minPixel_least_iff im).mp ⟨mini, hmini, hleast⟩,
      ⟨maxi, hgreatest.1, mini, hleast.1, hne⟩, saturation_ne h.nonempty hpass hshown⟩
  · rintro ⟨hdepth, hdiffer, hne⟩
    obtain ⟨mini, hmini, hleast⟩ := (minPixel_least_iff im).mpr hdepth
    obtain ⟨hmin, hmax⟩ := hpass.bytes h hmini hmaxi hleast.1 hgreatest.1
    have hlt : mini < maxi := hdiffer.lt hleast hgreatest
    have hvalues : sMin < sMax := by
      obtain ⟨-, -, -, -, hle, -, -⟩ := hpass
      omega
    have hlinear := linearContrast_maps h hmini hmaxi hleast hgreatest hlt
    have hsaturation := linearContrastSaturation_maps h hpass hmin hmax hvalues
    constructor
    · exact ⟨mini, hmini, hleast⟩
    · exact ⟨maxi, hmaxi, hgreatest⟩
    · refine ⟨_, hlinear, fun _ => ⟨stretched_maps hleast hgreatest hlt, fun row col => ⟨?_, ?_⟩⟩⟩
      · intro hl
        show stretched mini (maxi - mini) (im.getPixelVal row col) = 0
        rw [← hleast.unique hl]
        exact stretched_low _ _
      · intro hg
        show stretched mini (maxi - mini) (im.getPixelVal row col) = 255
        rw [← hgreatest.unique hg]
        exact stretched_high (by omega) rfl
    · refine ⟨_, _, hsaturation, fun _ => ⟨?_, ?_⟩⟩
      · intro row col row' col'
        exact saturated_mono hvalues
      · intro row col
        exact saturated_bounds sMin sMax _

/-- A black pixel and a bright one. -/
theorem contrast_sample : Stretches (⟨3, fun _ col => 200 * col⟩ : Image 1 2) 0 200 :=
  (contrast_iff ⟨3, fun _ col => 200 * col⟩ ⟨by decide, by decide⟩ 0 200
    ⟨0, 200, by decide, by decide, by decide, by decide, by decide⟩).mpr
    ⟨⟨0, by decide, by decide⟩, ⟨0, by decide, 200, by decide, by decide⟩, by decide⟩

/-- The search for the smallest of `100` and `200` ends at `3`, the number of channels. -/
theorem bright_image_fails : Passes (⟨3, fun _ col => 100 + 100 * col⟩ : Image 1 2) 100 200 ∧
    ¬ Stretches (⟨3, fun _ col => 100 + 100 * col⟩ : Image 1 2) 100 200 := by
  constructor
  · exact ⟨3, 200, by decide, by decide, by decide, by decide, by decide⟩
  · intro hs
    obtain ⟨v, hv, hle⟩ := (minPixel_least_iff _).mp hs.least
    have hbright : ∀ v ∈ (⟨3, fun _ col => 100 + 100 * col⟩ : Image 1 2).pixels, 3 < v := by decide
    have hlt := hbright v hv
    have hle' : v ≤ 3 := hle
    omega

end MemoryLeak.Images
