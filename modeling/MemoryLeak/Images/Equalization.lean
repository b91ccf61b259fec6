import MemoryLeak.Images.Image
import MemoryLeak.Cluster.ThreeSorts

/-!
# Histogram equalization

`histogramEqualization` counts the values of the pixels, adds the counts up and spreads the sums
over `1` to `255`. It divides by the number of pixels less `cdfmin`, the smallest count that is not
zero; but if no pixel is black, `cdfmin` stays zero, where it starts. Products are taken before the
division, as `int`s.
-/
namespace MemoryLeak.Images
open MemoryLeak.Loops MemoryLeak.Cluster

/-- An array `int x[256]`. -/
def table (f : ℤ → ℤ) : Cells ℤ := fun c => if 0 ≤ c ∧ c ≤ 255 then some (f c) else none

def store (cells : Cells ℤ) (c x : ℤ) : Option (Cells ℤ) :=
  if (cells c).isSome then some (Function.update cells c (some x)) else none

/-- Division of `int`s. -/
def intDiv (a b : ℤ) : Option ℤ := if b = 0 then none else intOf (a.tdiv b)

/-- `histogram[pixel]++`. -/
def countPixel (histogram : Cells ℤ) (pixel : ℤ) : Option (Cells ℤ) := do
  let n ← histogram pixel
  let n ← intOf (n + 1)
  store histogram pixel n

/-- A turn of the loop for `cdf` and `cdfmin`. -/
def cdfTurn (histogram : Cells ℤ) (s : Cells ℤ × ℤ) (i : ℕ) : Option (Cells ℤ × ℤ) := do
  let n ← histogram i
  let before ← s.1 (i - 1)
  let c ← intOf (n + before)
  let cdf ← store s.1 i c
  some (cdf, if n = 0 then s.2 else min n s.2)

/-- `(((cdf[i] - cdfmin) * (256 - 2))/(size - cdfmin)) + 1`. -/
def skValue (size cdfmin c : ℤ) : Option ℤ := do
  let above ← intOf (c - cdfmin)
  let product ← intOf (above * (256 - 2))
  let all ← intOf (size - cdfmin)
  let quotient ← intDiv product all
  intOf (quotient + 1)

def skTurn (cdf : Cells ℤ) (size cdfmin : ℤ) (sk : Cells ℤ) (i : ℕ) : Option (Cells ℤ) := do
  let c ← cdf i
  let x ← skValue size cdfmin c
  store sk i x

/-- What `histogramEqualization` prints and shows. -/
structure Equalized (rows cols : ℕ) where
  histogram : Cells ℤ
  cdf : Cells ℤ
  sk : Cells ℤ
  cdfmin : ℤ
  newImage : Image rows cols

def histogramEqualization {rows cols : ℕ} (im : Image rows cols) :
    Option (Equalized rows cols) := do
  let size ← intOf (cols * rows)
  let histogram ← eachPixel (fun histogram row col =>
    countPixel histogram (im.getPixelVal row col)) (table fun _ => 0)
  let first ← histogram 0
  let cdf ← store (table fun _ => 0) 0 first
  let (cdf, cdfmin) ← (List.range' 1 255).foldlM (cdfTurn histogram) (cdf, first)
  let sk ← (List.range' 0 256).foldlM (skTurn cdf size cdfmin) (table fun _ => 0)
  let newImage ← eachPixel (fun new row col =>
    (sk (im.getPixelVal row col)).map fun x => new.setPixelVal row col x)
    (Image.ofSize rows cols im.depth)
  some ⟨histogram, cdf, sk, cdfmin, newImage⟩

/-! ### The tables -/

section
variable {f : ℤ → ℤ} {c : ℤ}

theorem table_eq (h : 0 ≤ c) (h' : c ≤ 255) : table f c = some (f c) := if_pos ⟨h, h'⟩

theorem store_table (h : 0 ≤ c) (h' : c ≤ 255) (x : ℤ) :
    store (table f) c x = some (table (Function.update f c x)) := by
  rw [store, table_eq h h', if_pos Option.isSome_some]
  congr 1
  funext d
  unfold table
  by_cases hd : d = c
  · subst hd
    rw [Function.update_self, Function.update_self, if_pos ⟨h, h'⟩]
  · rw [Function.update_of_ne hd, Function.update_of_ne hd]

theorem table_congr {g : ℤ → ℤ} (h : ∀ c, 0 ≤ c → c ≤ 255 → f c = g c) : table f = table g := by
  funext c
  unfold table
  by_cases hc : 0 ≤ c ∧ c ≤ 255
  · rw [if_pos hc, if_pos hc, h c hc.1 hc.2]
  · rw [if_neg hc, if_neg hc]

/-- An array whose first cells, up to `n`, are written. -/
def written (g : ℤ → ℤ) (n : ℤ) : ℤ → ℤ := fun c => if c < n then g c else 0

theorem table_written_zero (g : ℤ → ℤ) : table (written g 0) = table fun _ => 0 :=
  table_congr fun _ hc _ => if_neg (not_lt.mpr hc)

theorem table_written_all (g : ℤ → ℤ) : table (written g 256) = table g :=
  table_congr fun _ _ hc => if_pos (Int.lt_add_one_of_le hc)

theorem written_next (g : ℤ → ℤ) (n : ℤ) :
    Function.update (written g n) n (g n) = written g (n + 1) := by
  funext c
  unfold written
  by_cases hc : c = n
  · subst hc
    rw [Function.update_self, if_pos (Int.lt_succ c)]
  · rw [Function.update_of_ne hc]
    by_cases hlt : c < n
    · rw [if_pos hlt, if_pos (hlt.trans (Int.lt_succ n))]
    · rw [if_neg hlt, if_neg (by omega)]

end

/-- The numbers of pixels with a value, and with one up to it. -/
def countOf (l : List ℤ) (c : ℤ) : ℤ := l.count c

def sumTo (l : List ℤ) (c : ℤ) : ℤ := l.countP (· ≤ c)

/-- `cdfmin` after the turns for `1` to `n`. -/
def leastCount (l : List ℤ) : ℕ → ℤ
  | 0 => countOf l 0
  | n + 1 => if countOf l (n + 1 : ℕ) = 0 then leastCount l n
      else min (countOf l (n + 1 : ℕ)) (leastCount l n)

/-- An image whose pixels are bytes, and their number an `int`. -/
structure ByteImage (l : List ℤ) : Prop where
  bytes : ∀ v ∈ l, 0 ≤ v ∧ v ≤ 255
  fits : (l.length : ℤ) ≤ 2147483647

variable {l : List ℤ}

theorem countOf_le (l : List ℤ) (c : ℤ) : countOf l c ≤ l.length := by
  unfold countOf
  exact_mod_cast List.count_le_length

theorem countPixels (h : ByteImage l) :
    l.foldlM countPixel (table fun _ => 0) = some (table (countOf l)) := by
  have hempty : (fun _ => 0) = countOf [] := rfl
  rw [hempty]
  apply foldlM_seen fun seen => table (countOf seen)
  intro seen v rest hl
  have hv := h.bytes v (by rw [hl]; simp)
  have hlen := congrArg List.length hl
  rw [List.length_append, List.length_cons] at hlen
  have hle := countOf_le seen v
  have hfits := h.fits
  have hnext : intOf (countOf seen v + 1) = some (countOf seen v + 1) :=
    intOf_eq (by unfold countOf; omega) (by omega)
  rw [countPixel, table_eq hv.1 hv.2, Option.bind_eq_bind, Option.bind_some, hnext,
    Option.bind_some, store_table hv.1 hv.2]
  apply congrArg some
  apply table_congr
  intro c _ _
  unfold countOf
  by_cases hc : c = v
  · subst hc
    simp
  · rw [Function.update_of_ne hc]
    simp [Ne.symm hc]

theorem sumTo_succ (l : List ℤ) (c : ℤ) : countOf l c + sumTo l (c - 1) = sumTo l c := by
  unfold countOf sumTo
  induction l with
  | nil => rfl
  | cons v l ih =>
    rw [List.count_cons, List.countP_cons, List.countP_cons]
    simp only [beq_iff_eq, decide_eq_true_eq]
    split_ifs <;> omega

theorem sumTo_mono (l : List ℤ) {c d : ℤ} (h : c ≤ d) : sumTo l c ≤ sumTo l d := by
  apply Int.ofNat_le.mpr
  apply List.countP_mono_left
  intro v _ hv
  exact decide_eq_true ((of_decide_eq_true hv).trans h)

theorem sumTo_le (l : List ℤ) (c : ℤ) : sumTo l c ≤ l.length := by
  unfold sumTo
  exact_mod_cast List.countP_le_length

theorem sumTo_zero (h : ByteImage l) : sumTo l 0 = countOf l 0 := by
  have hnone : sumTo l (0 - 1) = 0 := by
    unfold sumTo
    rw [Int.natCast_eq_zero, List.countP_eq_zero]
    intro v hv hle
    have hnonneg := (h.bytes v hv).1
    have hneg := of_decide_eq_true hle
    omega
  rw [← sumTo_succ, hnone, add_zero]

theorem sumTo_last (h : ByteImage l) : sumTo l 255 = l.length := by
  apply congrArg Nat.cast
  rw [List.countP_eq_length]
  intro v hv
  exact decide_eq_true (h.bytes v hv).2

theorem cdfLoop (h : ByteImage l) :
    (List.range' 1 255).foldlM (cdfTurn (table (countOf l)))
      (table (Function.update (fun _ => 0) 0 (countOf l 0)), countOf l 0) =
    some (table (sumTo l), leastCount l 255) := by
  have hinit : table (Function.update (fun _ => 0) 0 (countOf l 0)) =
      table (written (sumTo l) ((0 : ℕ) + 1)) := by
    apply Option.some.inj
    rw [← store_table le_rfl (show (0 : ℤ) ≤ 255 by decide), ← table_written_zero (sumTo l),
      store_table le_rfl (show (0 : ℤ) ≤ 255 by decide), ← sumTo_zero h, written_next]
    rfl
  rw [hinit, ← table_written_all (sumTo l)]
  apply foldlM_counted fun n => (table (written (sumTo l) ((n : ℕ) + 1)), leastCount l n)
  intro i hi
  have hindex : ((1 + i : ℕ) : ℤ) = i + 1 := by omega
  have hlow : (0 : ℤ) ≤ i + 1 := by omega
  have hhigh : (i : ℤ) + 1 ≤ 255 := by omega
  have hsum : intOf (countOf l (i + 1) + sumTo l i) = some (sumTo l (i + 1)) := by
    have heq := sumTo_succ l (i + 1)
    rw [add_sub_cancel_right] at heq
    have hle := sumTo_le l (i + 1)
    have hfits := h.fits
    rw [heq]
    exact intOf_eq (by unfold sumTo; omega) (by omega)
  have hbefore : table (written (sumTo l) (i + 1)) i = some (sumTo l i) := by
    rw [table_eq (by omega) (by omega), written, if_pos (Int.lt_succ _)]
  simp only [cdfTurn, hindex, table_eq hlow hhigh, add_sub_cancel_right, hbefore, hsum,
    store_table hlow hhigh, written_next, bind, Option.bind_some, leastCount]
  push_cast
  rfl

/-! ### The values of `sk` -/

/-- `skValue` with whole numbers. -/
def level (size cdfmin c : ℤ) : ℤ := (c - cdfmin) * 254 / (size - cdfmin) + 1

/-- The divisor is not zero, and the greatest product is an `int`. -/
structure Spreads (size cdfmin : ℤ) : Prop where
  ne : cdfmin ≠ size
  fits : (size - cdfmin) * 254 ≤ 2147483647

section
variable {size m c d x : ℤ}

theorem level_bounds (h : Spreads size m) (hmc : m ≤ c) (hcs : c ≤ size) :
    1 ≤ level size m c ∧ level size m c ≤ 255 := by
  have hne := h.ne
  have hpos : 0 < size - m := by omega
  have hlow : 0 ≤ (c - m) * 254 / (size - m) := Int.ediv_nonneg (by omega) hpos.le
  have hhigh : (c - m) * 254 / (size - m) ≤ 254 := Int.ediv_le_of_le_mul hpos (by omega)
  unfold level
  omega

theorem level_mono (h : Spreads size m) (hmc : m ≤ c) (hcd : c ≤ d) (hds : d ≤ size) :
    level size m c ≤ level size m d := by
  have hne := h.ne
  have hpos : 0 < size - m := by omega
  have hdiv : (c - m) * 254 / (size - m) ≤ (d - m) * 254 / (size - m) :=
    Int.ediv_le_ediv hpos (by omega)
  unfold level
  omega

theorem skValue_eq (h : Spreads size m) (hmc : m ≤ c) (hcs : c ≤ size) :
    skValue size m c = some (level size m c) := by
  have hprod := h.fits
  have hlevel := level_bounds h hmc hcs
  have hquotient : intDiv ((c - m) * (256 - 2)) (size - m) = some (level size m c - 1) := by
    have hvalue : level size m c - 1 = (c - m) * (256 - 2) / (size - m) := add_sub_cancel_right _ _
    rw [intDiv, if_neg (sub_ne_zero.mpr h.ne.symm), Int.tdiv_eq_ediv_of_nonneg (by omega), ← hvalue]
    exact intOf_eq (by omega) (by omega)
  have habove : intOf (c - m) = some (c - m) := intOf_eq (by omega) (by omega)
  have hproduct : intOf ((c - m) * (256 - 2)) = some ((c - m) * (256 - 2)) :=
    intOf_eq (by omega) (by omega)
  have hall : intOf (size - m) = some (size - m) := intOf_eq (by omega) (by omega)
  simp only [skValue, habove, hproduct, hall, hquotient, bind, Option.bind_some, sub_add_cancel]
  exact intOf_eq (by omega) (by omega)

/-- The value for the last sum, that of all pixels. -/
theorem spreads_of_skValue (h : skValue size m size = some x) : Spreads size m := by
  obtain ⟨above, habove, h⟩ := Option.bind_eq_some_iff.mp h
  obtain ⟨product, hproduct, h⟩ := Option.bind_eq_some_iff.mp h
  obtain ⟨all, hall, h⟩ := Option.bind_eq_some_iff.mp h
  obtain ⟨quotient, hquotient, -⟩ := Option.bind_eq_some_iff.mp h
  unfold intOf at habove hproduct hall
  split_ifs at habove with hsub
  cases habove
  rw [if_pos hsub] at hall
  cases hall
  split_ifs at hproduct with hfits
  unfold intDiv at hquotient
  split_ifs at hquotient with hzero
  exact ⟨fun heq => hzero (sub_eq_zero.mpr heq.symm), hfits.2⟩

end

theorem skLoop {m : ℤ} (hs : Spreads l.length m) (hle : ∀ c, 0 ≤ c → m ≤ sumTo l c) :
    (List.range' 0 256).foldlM (skTurn (table (sumTo l)) l.length m) (table fun _ => 0) =
      some (table fun c => level l.length m (sumTo l c)) := by
  rw [← table_written_zero fun c => level l.length m (sumTo l c),
    ← table_written_all fun c => level l.length m (sumTo l c)]
  apply foldlM_counted fun n => table (written (fun c => level l.length m (sumTo l c)) (n : ℕ))
  intro i hi
  rw [Nat.zero_add]
  have hlow : (0 : ℤ) ≤ i := by omega
  have hhigh : (i : ℤ) ≤ 255 := by omega
  have hvalue := skValue_eq hs (hle i hlow) (sumTo_le l i)
  simp only [skTurn, table_eq hlow hhigh, hvalue, store_table hlow hhigh, bind, Option.bind_some]
  rw [written_next fun c => level l.length m (sumTo l c), Int.natCast_succ]

/-! ### The smallest count -/

theorem leastCount_nonneg (l : List ℤ) (n : ℕ) : 0 ≤ leastCount l n := by
  induction n with
  | zero => exact Int.natCast_nonneg _
  | succ n ih =>
    rw [leastCount]
    split_ifs
    · exact ih
    · exact le_min (Int.natCast_nonneg _) ih

theorem leastCount_le_black (l : List ℤ) (n : ℕ) : leastCount l n ≤ countOf l 0 := by
  induction n with
  | zero => exact le_rfl
  | succ n ih =>
    rw [leastCount]
    split_ifs
    · exact ih
    · exact (min_le_right _ _).trans ih

theorem countOf_eq_zero {v : ℤ} : countOf l v = 0 ↔ v ∉ l := by
  unfold countOf
  rw [Int.natCast_eq_zero, List.count_eq_zero]

/-- Without a black pixel, the smallest count stays zero. -/
theorem leastCount_no_black (h : 0 ∉ l) (n : ℕ) : leastCount l n = 0 := by
  apply le_antisymm
  · rw [← countOf_eq_zero.mpr h]
    exact leastCount_le_black l n
  · exact leastCount_nonneg l n

theorem leastCount_le {n : ℕ} {v : ℤ} (hv : v ∈ l) (hlow : 0 ≤ v) (hhigh : v ≤ n) :
    leastCount l n ≤ countOf l v := by
  induction n with
  | zero =>
    obtain rfl : v = 0 := by omega
    exact le_rfl
  | succ n ih =>
    rw [leastCount]
    by_cases heq : v = (n + 1 : ℕ)
    · rw [← heq, if_neg fun h => countOf_eq_zero.mp h hv]
      exact min_le_left _ _
    · have hrest := ih (by omega)
      split_ifs
      · exact hrest
      · exact (min_le_right _ _).trans hrest

/-- With a black pixel, it is the count of some pixel. -/
theorem leastCount_mem (h : 0 ∈ l) (n : ℕ) : ∃ v ∈ l, leastCount l n = countOf l v := by
  induction n with
  | zero => exact ⟨0, h, rfl⟩
  | succ n ih =>
    rw [leastCount]
    split_ifs with hzero
    · exact ih
    · rcases le_total (countOf l (n + 1 : ℕ)) (leastCount l n) with hle | hle
      · rw [min_eq_left hle]
        exact ⟨_, not_not.mp fun hn => hzero (countOf_eq_zero.mpr hn), rfl⟩
      · rw [min_eq_right hle]
        exact ih

/-! ### Images that can be equalized -/

/-- Some pixel is not black. The pixels are not too many: if one is black, those that differ from
any one of them. -/
structure Equalizable (l : List ℤ) : Prop where
  notBlack : ∃ v ∈ l, v ≠ 0
  fits : if 0 ∈ l then ∀ v ∈ l, l.countP (· ≠ v) ≤ 8454660 else l.length ≤ 8454660

theorem countP_ne (l : List ℤ) (v : ℤ) : (l.countP (· ≠ v) : ℤ) = l.length - countOf l v := by
  have hsum := List.length_eq_countP_add_countP (· == v) (l := l)
  have hne : l.countP (fun w => decide (w ≠ v)) = l.countP fun w => decide ¬ (w == v) := by
    congr 1
    funext w
    simp
  rw [hne]
  unfold countOf List.count
  omega

theorem all_black_iff : countOf l 0 = l.length ↔ ∀ v ∈ l, v = 0 := by
  unfold countOf
  rw [Int.natCast_inj, List.count_eq_length]
  exact ⟨fun h v hv => (h v hv).symm, fun h v hv => (h v hv).symm⟩

theorem spreads_iff (h : ByteImage l) :
    Spreads l.length (leastCount l 255) ↔ Equalizable l := by
  by_cases hblack : 0 ∈ l
  · have hle : ∀ v ∈ l, leastCount l 255 ≤ countOf l v := fun v hv =>
      leastCount_le hv (h.bytes v hv).1 (h.bytes v hv).2
    obtain ⟨w, hw, heq⟩ := leastCount_mem hblack 255
    constructor
    · rintro ⟨hne, hfits⟩
      constructor
      · by_contra hnone
        have hblacks : ∀ v ∈ l, v = 0 := fun v hv => not_not.mp fun hne => hnone ⟨v, hv, hne⟩
        rw [hblacks w hw] at heq
        exact hne (heq.trans (all_black_iff.mpr hblacks))
      · rw [if_pos hblack]
        intro v hv
        have hcount := countP_ne l v
        have hmin := hle v hv
        omega
    · rintro ⟨⟨v, hv, hne⟩, hfits⟩
      rw [if_pos hblack] at hfits
      have hcount := countP_ne l w
      have hmany := hfits w hw
      constructor
      · intro hsize
        apply hne
        apply all_black_iff.mp _ v hv
        apply le_antisymm (countOf_le l 0)
        rw [← hsize]
        exact leastCount_le_black l 255
      · omega
  · rw [leastCount_no_black hblack]
    constructor
    · rintro ⟨hne, hfits⟩
      constructor
      · obtain ⟨v, hv⟩ := List.exists_mem_of_length_pos (show 0 < l.length by omega)
        exact ⟨v, hv, fun heq => hblack (heq ▸ hv)⟩
      · rw [if_neg hblack]
        omega
    · rintro ⟨⟨v, hv, -⟩, hfits⟩
      rw [if_neg hblack] at hfits
      have hpos := List.length_pos_of_mem hv
      exact ⟨by omega, by omega⟩

/-! ### The whole filter -/

variable {rows cols : ℕ}

theorem leastCount_le_sumTo (h : ByteImage l) {c : ℤ} (hc : 0 ≤ c) :
    leastCount l 255 ≤ sumTo l c := by
  calc leastCount l 255 ≤ countOf l 0 := leastCount_le_black l 255
    _ = sumTo l 0 := (sumTo_zero h).symm
    _ ≤ sumTo l c := sumTo_mono l hc

/-- `sk` for the pixels `l`. -/
def skOf (l : List ℤ) (c : ℤ) : ℤ := level l.length (leastCount l 255) (sumTo l c)

/-- The tables, and the new pixels. -/
def equalized (im : Image rows cols) : Equalized rows cols :=
  ⟨table (countOf im.pixels), table (sumTo im.pixels), table (skOf im.pixels),
    leastCount im.pixels 255, ⟨im.depth, fun row col => skOf im.pixels (im.getPixelVal row col)⟩⟩

theorem size_eq (im : Image rows cols) : (cols * rows : ℤ) = im.pixels.length := by
  rw [im.length_pixels]
  push_cast
  exact mul_comm _ _

/-- All that comes before the loop for `sk` succeeds. -/
theorem histogramEqualization_eq (im : Image rows cols) (h : ByteImage im.pixels) :
    histogramEqualization im =
      ((List.range' 0 256).foldlM (skTurn (table (sumTo im.pixels)) im.pixels.length
          (leastCount im.pixels 255)) (table fun _ => 0)).bind fun sk =>
        (eachPixel (fun new row col =>
            (sk (im.getPixelVal row col)).map fun x => new.setPixelVal row col x)
          (Image.ofSize rows cols im.depth)).map fun newImage =>
        ⟨table (countOf im.pixels), table (sumTo im.pixels), sk, leastCount im.pixels 255,
          newImage⟩ := by
  have hsize : intOf (cols * rows) = some (im.pixels.length : ℤ) := by
    rw [size_eq im]
    exact intOf_eq (by omega) h.fits
  have hcounts : eachPixel (fun histogram row col => countPixel histogram (im.getPixelVal row col))
      (table fun _ => 0) = some (table (countOf im.pixels)) := by
    rw [im.eachPixel_read]
    exact countPixels h
  simp only [histogramEqualization, hsize, hcounts, table_eq le_rfl (show (0 : ℤ) ≤ 255 by decide),
    store_table le_rfl (show (0 : ℤ) ≤ 255 by decide), cdfLoop h, bind, Option.bind_some]
  congr 1
  funext sk
  exact Option.map_eq_bind.symm

theorem histogramEqualization_some (im : Image rows cols) (h : ByteImage im.pixels)
    (hs : Spreads im.pixels.length (leastCount im.pixels 255)) :
    histogramEqualization im = some (equalized im) := by
  have hwrite : ∀ row col, table (skOf im.pixels) (im.getPixelVal row col) =
      some (skOf im.pixels (im.getPixelVal row col)) := fun row col => by
    have hbyte := h.bytes _ (im.getPixelVal_mem row col)
    exact table_eq hbyte.1 hbyte.2
  rw [histogramEqualization_eq im h, skLoop hs fun c hc => leastCount_le_sumTo h hc,
    Option.bind_some]
  exact congrArg (Option.map _) (Image.eachPixel_write hwrite _)

/-- A run that ends has divided by a number other than zero, and taken the greatest product. -/
theorem spreads_of_run (im : Image rows cols) (h : ByteImage im.pixels) {r : Equalized rows cols}
    (hr : histogramEqualization im = some r) :
    Spreads im.pixels.length (leastCount im.pixels 255) := by
  rw [histogramEqualization_eq im h] at hr
  obtain ⟨sk, hsk, -⟩ := Option.bind_eq_some_iff.mp hr
  have hmem : 255 ∈ List.range' 0 256 := List.mem_range'_1.mpr (by omega)
  obtain ⟨t, t', hturn⟩ := foldlM_taken hsk hmem
  rw [skTurn] at hturn
  obtain ⟨c, hc, hturn⟩ := Option.bind_eq_some_iff.mp hturn
  obtain ⟨x, hx, -⟩ := Option.bind_eq_some_iff.mp hturn
  rw [table_eq (by omega) (by omega)] at hc
  cases hc
  have hlast : sumTo im.pixels (255 : ℕ) = im.pixels.length := sumTo_last h
  rw [hlast] at hx
  exact spreads_of_skValue hx

/-- `histogramEqualization` divides by no zero and overflows no `int`; `sk` does not fall, and the
new pixels are within `1` and `255`. -/
def Equalizes (im : Image rows cols) : Prop :=
  ∃ r, histogramEqualization im = some r ∧
    (∀ i j, 0 ≤ i → i ≤ j → j ≤ 255 → ∃ a ∈ r.sk i, ∃ b ∈ r.sk j, a ≤ b) ∧
    ∀ row col, 1 ≤ r.newImage.getPixelVal row col ∧ r.newImage.getPixelVal row col ≤ 255

/-- The filter works exactly on the images that are not all black and not too large: the greatest
product is 254 times the number of pixels less the smallest count, or 254 times the number of
pixels if none is black. -/
theorem equalization_iff (im : Image rows cols) (hsize : (cols * rows : ℤ) ≤ 2147483647)
    (hbytes : ∀ v ∈ im.pixels, 0 ≤ v ∧ v ≤ 255) : Equalizes im ↔ Equalizable im.pixels := by
  have h : ByteImage im.pixels := ⟨hbytes, by rw [← size_eq im]; exact hsize⟩
  rw [← spreads_iff h]
  constructor
  · rintro ⟨r, hr, -⟩
    exact spreads_of_run im h hr
  · intro hs
    have hle : ∀ c, 0 ≤ c → leastCount im.pixels 255 ≤ sumTo im.pixels c := fun c hc =>
      leastCount_le_sumTo h hc
    have hsk : ∀ c, 0 ≤ c → c ≤ 255 → (equalized im).sk c = some (skOf im.pixels c) :=
      fun c hc hc' => table_eq hc hc'
    refine ⟨equalized im, histogramEqualization_some im h hs, ?_, ?_⟩
    · intro i j hi hij hj
      refine ⟨_, hsk i hi (hij.trans hj), _, hsk j (hi.trans hij) hj, ?_⟩
      exact level_mono hs (hle i hi) (sumTo_mono _ hij) (sumTo_le _ j)
    · intro row col
      exact level_bounds hs (hle _ (hbytes _ (im.getPixelVal_mem row col)).1) (sumTo_le _ _)

/-- A black pixel and one that is not. -/
theorem equalization_sample : Equalizes (⟨1, fun _ col => 7 * col⟩ : Image 1 2) :=
  (equalization_iff ⟨1, fun _ col => 7 * col⟩ (by decide) (by decide)).mpr
    ⟨⟨7, by decide, by decide⟩, by decide⟩

/-- An image of one black pixel: the smallest count is that of all pixels. -/
theorem black_image_divides : ¬ Equalizes (⟨1, fun _ _ => 0⟩ : Image 1 1) := by
  rintro ⟨r, hr, -⟩
  have h : ByteImage (⟨1, fun _ _ => 0⟩ : Image 1 1).pixels := ⟨by decide, by decide⟩
  obtain ⟨⟨v, hv, hne⟩, -⟩ := (spreads_iff h).mp (spreads_of_run _ h hr)
  exact hne (List.mem_singleton.mp hv)

end MemoryLeak.Images
