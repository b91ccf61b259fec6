import MemoryLeak.Loops
import Mathlib.Data.List.Nodup
import Mathlib.Data.List.ProdSigma
import Mathlib.Data.Fin.Basic

/-!
# Images

`class Image` of the image filters, without its colours. A filter visits the pixels row by row; it
reads them from one image and writes others to a second one of the same size.
-/
namespace MemoryLeak.Images
open MemoryLeak.Loops

/-- An image has a pixel for each of its rows and columns. -/
structure Image (rows cols : ℕ) where
  depth : ℕ
  pixelVal : Fin rows → Fin cols → ℤ

namespace Image

variable {rows cols : ℕ}

/-- The constructor: all pixels are `0`. -/
def ofSize (numRows numCols Ndepth : ℕ) : Image numRows numCols := ⟨Ndepth, fun _ _ => 0⟩

def getPixelVal (im : Image rows cols) (row : Fin rows) (col : Fin cols) : ℤ := im.pixelVal row col

def setPixelVal (im : Image rows cols) (row : Fin rows) (col : Fin cols) (value : ℤ) :
    Image rows cols :=
  ⟨im.depth, Function.update im.pixelVal row (Function.update (im.pixelVal row) col value)⟩

end Image

variable {rows cols : ℕ} {σ : Type}

/-- The two loops over all rows and all columns. -/
def eachPixel (f : σ → Fin rows → Fin cols → Option σ) (s : σ) : Option σ :=
  (List.finRange rows).foldlM (fun s i => (List.finRange cols).foldlM (fun s j => f s i j) s) s

/-! ### The order of the pixels -/

theorem foldlM_product {α β : Type} (f : σ → α → β → Option σ) (l : List α) (l' : List β) (s : σ) :
    (l ×ˢ l').foldlM (fun s p => f s p.1 p.2) s =
      l.foldlM (fun s a => l'.foldlM (fun s b => f s a b) s) s := by
  induction l generalizing s with
  | nil => rfl
  | cons a l ih =>
    rw [List.product_cons, List.foldlM_append, List.foldlM_map, List.foldlM_cons]
    simp only [ih]

def positions (rows cols : ℕ) : List (Fin rows × Fin cols) :=
  List.finRange rows ×ˢ List.finRange cols

theorem mem_positions (p : Fin rows × Fin cols) : p ∈ positions rows cols :=
  List.mem_product.mpr ⟨List.mem_finRange p.1, List.mem_finRange p.2⟩

theorem positions_nodup (rows cols : ℕ) : (positions rows cols).Nodup :=
  List.Nodup.product (List.nodup_finRange rows) (List.nodup_finRange cols)

theorem eachPixel_eq (f : σ → Fin rows → Fin cols → Option σ) (s : σ) :
    eachPixel f s = (positions rows cols).foldlM (fun s p => f s p.1 p.2) s :=
  (foldlM_product f _ _ s).symm

namespace Image

/-- The pixels, row by row. -/
def pixels (im : Image rows cols) : List ℤ :=
  (positions rows cols).map fun p => im.getPixelVal p.1 p.2

theorem length_pixels (im : Image rows cols) : im.pixels.length = rows * cols := by
  rw [pixels, List.length_map, positions, List.length_product, List.length_finRange,
    List.length_finRange]

theorem getPixelVal_mem (im : Image rows cols) (row : Fin rows) (col : Fin cols) :
    im.getPixelVal row col ∈ im.pixels :=
  List.mem_map_of_mem (f := fun p : Fin rows × Fin cols => im.getPixelVal p.1 p.2)
    (mem_positions (row, col))

/-- A filter that reads the pixels only. -/
theorem eachPixel_read (im : Image rows cols) (f : σ → ℤ → Option σ) (s : σ) :
    eachPixel (fun s row col => f s (im.getPixelVal row col)) s = im.pixels.foldlM f s := by
  rw [eachPixel_eq, pixels, List.foldlM_map]

@[ext] theorem ext {im im' : Image rows cols} (hdepth : im.depth = im'.depth)
    (h : ∀ row col, im.getPixelVal row col = im'.getPixelVal row col) : im = im' := by
  obtain ⟨depth, pixelVal⟩ := im
  obtain ⟨depth', pixelVal'⟩ := im'
  obtain rfl : depth = depth' := hdepth
  obtain rfl : pixelVal = pixelVal' := funext fun row => funext fun col => h row col
  rfl

theorem setPixelVal_eq (im : Image rows cols) (row : Fin rows) (col : Fin cols) (value : ℤ)
    (i : Fin rows) (j : Fin cols) : (im.setPixelVal row col value).getPixelVal i j =
      if (i, j) = (row, col) then value else im.getPixelVal i j := by
  unfold setPixelVal getPixelVal
  by_cases hrow : i = row
  · subst hrow
    by_cases hcol : j = col
    · subst hcol
      simp
    · simp [hcol]
  · simp [hrow]

/-- A filter that writes each pixel once; a pixel that it reads is not written yet. -/
theorem eachPixel_set {turn : Image rows cols → Fin rows → Fin cols → Option (Image rows cols)}
    {g : Fin rows → Fin cols → ℤ} (im : Image rows cols)
    (h : ∀ (cur : Image rows cols) row col, cur.getPixelVal row col = im.getPixelVal row col →
      turn cur row col = some (cur.setPixelVal row col (g row col))) :
    eachPixel turn im = some ⟨im.depth, g⟩ := by
  let seenBy (seen : List (Fin rows × Fin cols)) : Image rows cols :=
    ⟨im.depth, fun row col => if (row, col) ∈ seen then g row col else im.pixelVal row col⟩
  have hall : (positions rows cols).foldlM (fun cur p => turn cur p.1 p.2) (seenBy []) =
      some (seenBy (positions rows cols)) := by
    apply foldlM_seen seenBy
    intro seen p rest hl
    have hnew : p ∉ seen := by
      have hnodup := positions_nodup rows cols
      rw [hl] at hnodup
      exact (List.nodup_middle.mp hnodup).notMem ∘ List.mem_append_left rest
    have hsame : (seenBy seen).getPixelVal p.1 p.2 = im.getPixelVal p.1 p.2 := if_neg hnew
    rw [h _ _ _ hsame]
    apply congrArg some
    ext row col
    · rfl
    · rw [setPixelVal_eq]
      by_cases hp : (row, col) = p
      · subst hp
        rw [if_pos rfl]
        exact (if_pos (List.mem_append_right seen (List.mem_singleton.mpr rfl))).symm
      · have hmem : (row, col) ∈ seen ++ [p] ↔ (row, col) ∈ seen := by
          rw [List.mem_append, List.mem_singleton, or_iff_left hp]
        rw [if_neg hp]
        simp only [getPixelVal, seenBy, hmem]
  have hnone : seenBy [] = im := by simp [seenBy]
  have hlast : seenBy (positions rows cols) = ⟨im.depth, g⟩ := by
    simp only [seenBy, mem_positions, if_true]
  rw [eachPixel_eq]
  rw [hnone, hlast] at hall
  exact hall

/-- A filter that writes to a second image. -/
theorem eachPixel_write {value : Fin rows → Fin cols → Option ℤ} {g : Fin rows → Fin cols → ℤ}
    (h : ∀ row col, value row col = some (g row col)) (new : Image rows cols) :
    eachPixel (fun new row col => (value row col).map fun x => new.setPixelVal row col x) new =
      some ⟨new.depth, g⟩ := by
  apply eachPixel_set
  intro cur row col _
  rw [h, Option.map_some]

/-- A filter that overwrites the pixels it reads. -/
theorem eachPixel_inPlace {value : ℤ → Option ℤ} {g : ℤ → ℤ} (im : Image rows cols)
    (h : ∀ v ∈ im.pixels, value v = some (g v)) :
    eachPixel (fun im row col => (value (im.getPixelVal row col)).map fun x =>
      im.setPixelVal row col x) im =
        some ⟨im.depth, fun row col => g (im.getPixelVal row col)⟩ := by
  apply eachPixel_set
  intro cur row col hsame
  rw [hsame, h _ (im.getPixelVal_mem row col), Option.map_some]

end Image

end MemoryLeak.Images
