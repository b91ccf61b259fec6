import MemoryLeak.Standalone.QuickSort
import MemoryLeak.TwoEnded

/-!
# The partitions as splits of lists

On the cells of a list both partitions do what the split of the list from both ends does: the one
of the cluster program cuts it into halves, the stand-alone one around the pivot. A `tmp` for
`int` values stops at the first value moved up that is no `int`.
-/
namespace MemoryLeak.Standalone
open MemoryLeak.Loops MemoryLeak.Sorting MemoryLeak.Cluster MemoryLeak.TwoEnded

/-! ### The sort of the cluster program -/

section
variable (save : Int64 → Option Int64)

/-- `while (i < j)` of `partition` of the cluster program. -/
def clusterTurn (pivot : Int64) (k : ℕ) (s : PartState Int64) :
    Option (Turn (PartState Int64)) :=
  if s.i < s.j then do
    let j ← whileLoop (Cluster.scanDown longCmp s.data pivot s.i) k s.j
    let i ← whileLoop (Cluster.scanUp longCmp s.data pivot j) k s.i
    if i < j then do
      let data ← swapBy save s.data i j
      some (.again ⟨data, i + 1, j - 1⟩)
    else some (.again ⟨s.data, i, j⟩)
  else some (.leave s)

/-- `partition` of the cluster program. -/
def clusterPartition (k : ℕ) (data : Cells Int64) (low hi : ℤ) : Option (Cells Int64 × ℤ) := do
  let pivot ← data low
  let i ← intOf (low + 1)
  let s ← whileLoop (clusterTurn save pivot k) k ⟨data, i, hi⟩
  let x ← s.data s.j
  if longCmp x pivot < 0 then do
    let data ← swapBy save s.data low s.j
    some (data, s.j)
  else some (s.data, s.j)

/-- `quick_sort` of the cluster program. -/
def clusterSort (k : ℕ) : ℕ → Cells Int64 → ℤ → ℤ → Option (Cells Int64)
  | 0, _, _, _ => none
  | n + 1, arr, low, hi => do
    let (arr, j) ← clusterPartition save k arr low hi
    let arr ← if low < j - 1 then clusterSort k n arr low (j - 1) else some arr
    if j < hi then clusterSort k n arr j hi else some arr

end

/-- A `tmp` for values that are `int`s only. -/
def fitting (v : Int64) : Option Int64 := if FitsInt v then some v else none

theorem fitting_savesAs_toTmp : SavesAs fitting toTmp := by
  intro v w h
  unfold fitting at h
  split_ifs at h with hv
  cases h
  exact (toTmp_eq_iff v).mpr hv

/-! ### The cells of a list -/

section Fill

variable {α : Type}

/-- The values of a list from the cell `low` on, in other memory. -/
def fill (g : Cells α) (low : ℤ) (l : List α) : Cells α := fun k =>
  if low ≤ k ∧ k < low + l.length then l[(k - low).toNat]? else g k

variable {g : Cells α} {low i j : ℤ} {a b c l : List α} {x y : α}

theorem fill_append : fill g low (a ++ b) = fill (fill g (low + a.length) b) low a := by
  funext k
  unfold fill
  rw [List.length_append]
  by_cases ha : low ≤ k ∧ k < low + a.length
  · rw [if_pos ha, if_pos (by omega), List.getElem?_append_left (by omega)]
  · rw [if_neg ha]
    by_cases hb : low + a.length ≤ k ∧ k < low + a.length + b.length
    · rw [if_pos hb, if_pos (by omega), List.getElem?_append_right (by omega)]
      congr 1
      omega
    · rw [if_neg hb, if_neg (by omega)]

/-- The two parts one after the other, in either order. -/
theorem fill_append' : fill g low (a ++ b) = fill (fill g low a) (low + a.length) b := by
  rw [fill_append]
  funext k
  unfold fill
  by_cases ha : low ≤ k ∧ k < low + a.length
  · rw [if_pos ha, if_neg (by omega), if_pos ha]
  · rw [if_neg ha, if_neg ha]

/-- Two parts with a value between them. -/
theorem fill_between : fill g low (a ++ ([x] ++ b)) =
    fill (fill g low (a ++ [x])) (low + a.length + 1) b := by
  rw [← List.append_assoc, fill_append']
  congr 1
  rw [List.length_append, List.length_singleton]
  omega

theorem fill_get (hi : i = low + a.length) : fill g low (a ++ x :: b) i = some x := by
  unfold fill
  rw [List.length_append, List.length_cons, if_pos (by omega),
    List.getElem?_append_right (by omega)]
  have hzero : (i - low).toNat - a.length = 0 := by omega
  rw [hzero]
  rfl

theorem fill_set (hi : i = low + a.length) :
    Function.update (fill g low (a ++ x :: b)) i (some y) = fill g low (a ++ y :: b) := by
  funext k
  by_cases hk : k = i
  · subst hk
    rw [Function.update_self, fill_get hi]
  · rw [Function.update_of_ne hk]
    unfold fill
    rw [List.length_append, List.length_append, List.length_cons, List.length_cons]
    split_ifs with hin
    · by_cases hlt : (k - low).toNat < a.length
      · rw [List.getElem?_append_left hlt, List.getElem?_append_left hlt]
      · obtain ⟨m, hm⟩ : ∃ m, (k - low).toNat - a.length = m + 1 :=
          ⟨(k - low).toNat - a.length - 1, by omega⟩
        rw [List.getElem?_append_right (by omega), List.getElem?_append_right (by omega), hm]
        rfl
    · rfl

theorem fill_filled {l h : ℤ} {v : List α} (hl : low ≤ l) (hh : h < low + v.length) :
    Filled (fill g low v) l h := by
  intro k hk
  rw [mem_within] at hk
  unfold fill
  rw [if_pos (by omega), List.getElem?_eq_getElem (by omega)]
  rfl

theorem ofList_eq_fill (l : List α) : ofList l = fill (fun _ => none) 0 l := by
  funext k
  unfold ofList fill
  split_ifs with h h'
  · rw [Int.sub_zero]
  · exact List.getElem?_eq_none (by omega)
  · omega
  · rfl

end Fill

variable {g data : Cells Int64} {low i j : ℤ} {p x y r : Int64} {a b c : List Int64}

/-- A swap of two values of the list saves the first one. -/
theorem swapBy_fill (hi : i = low + a.length) (hj : j = i + 1 + b.length) :
    swapBy fitting (fill g low (a ++ x :: (b ++ y :: c))) i j =
      if FitsInt x then some (fill g low (a ++ y :: (b ++ x :: c))) else none := by
  have hassoc : ∀ u v : Int64, a ++ u :: (b ++ v :: c) = (a ++ u :: b) ++ v :: c := fun u v => by
    rw [List.append_assoc, List.cons_append]
  have hy : fill g low (a ++ x :: (b ++ y :: c)) j = some y := by
    rw [hassoc]
    apply fill_get
    rw [List.length_append, List.length_cons]
    omega
  simp only [swapBy, fill_get hi, hy, Option.bind_some, fitting]
  split_ifs with hfits
  · simp only [bind, Option.bind_some, fill_set hi, Option.some.injEq]
    rw [hassoc, hassoc, fill_set]
    rw [List.length_append, List.length_cons]
    omega
  · rfl

/-! ### One turn -/

/-- The scan from above passes a value that is not below the pivot. -/
theorem scanDown_pass (hij : i < j) (hfilled : Filled data i j) (hr : data j = some r)
    (hle : longCmp p r ≤ 0) : ∃ B, ∀ k, B < k →
      whileLoop (Cluster.scanDown longCmp data p i) k j =
        whileLoop (Cluster.scanDown longCmp data p i) k (j - 1) := by
  obtain ⟨j', hloop, -⟩ := scanDown_spec longCmp p (show i ≤ j - 1 by omega)
    (fun k hk => hfilled k ⟨hk.1, by have := hk.2; omega⟩) _ le_rfl
  have hpass : Cluster.scanDown longCmp data p i j = some (.again (j - 1)) := by
    simp only [Cluster.scanDown, hr, Option.map_some, if_pos hle, if_pos hij]
  refine ⟨(j - 1 - i).toNat + 1, fun k hk => ?_⟩
  rw [whileLoop_again hpass (by omega), hloop _ (by omega), hloop _ (by omega)]

theorem scanDown_stay (hr : data j = some r) (hgt : 0 < longCmp p r) {k : ℕ}
    (hk : 0 < k) : whileLoop (Cluster.scanDown longCmp data p i) k j = some j := by
  apply whileLoop_leave _ hk
  simp only [Cluster.scanDown, hr, Option.map_some, if_neg (not_le.mpr hgt)]

theorem scanDown_end (hfilled : Filled data i i) {k : ℕ} (hk : 0 < k) :
    whileLoop (Cluster.scanDown longCmp data p i) k i = some i := by
  obtain ⟨x, hx⟩ := hfilled.get le_rfl le_rfl
  apply whileLoop_leave _ hk
  simp only [Cluster.scanDown, hx, Option.map_some, if_neg (lt_irrefl i), ite_self]

/-- The scan from below passes a value that is not above the pivot. -/
theorem scanUp_pass (hij : i < j) (hfilled : Filled data i j) (hx : data i = some x)
    (hle : 0 ≤ longCmp p x) : ∃ B, ∀ k, B < k →
      whileLoop (Cluster.scanUp longCmp data p j) k i =
        whileLoop (Cluster.scanUp longCmp data p j) k (i + 1) := by
  obtain ⟨i', hloop, -⟩ := scanUp_spec longCmp p (show i + 1 ≤ j by omega)
    (fun k hk => hfilled k ⟨by have := hk.1; omega, hk.2⟩) _ le_rfl
  have hpass : Cluster.scanUp longCmp data p j i = some (.again (i + 1)) := by
    simp only [Cluster.scanUp, hx, Option.map_some, if_pos hle, if_pos hij]
  refine ⟨(j - (i + 1)).toNat + 1, fun k hk => ?_⟩
  rw [whileLoop_again hpass (by omega), hloop _ (by omega), hloop _ (by omega)]

theorem scanUp_stay (hx : data i = some x) (hlt : longCmp p x < 0) {k : ℕ} (hk : 0 < k) :
    whileLoop (Cluster.scanUp longCmp data p j) k i = some i := by
  apply whileLoop_leave _ hk
  simp only [Cluster.scanUp, hx, Option.map_some, if_neg (not_le.mpr hlt)]

theorem scanUp_end (hfilled : Filled data i i) {k : ℕ} (hk : 0 < k) :
    whileLoop (Cluster.scanUp longCmp data p i) k i = some i := by
  obtain ⟨x, hx⟩ := hfilled.get le_rfl le_rfl
  apply whileLoop_leave _ hk
  simp only [Cluster.scanUp, hx, Option.map_some, if_neg (lt_irrefl i), ite_self]

section Loop

-- a loop that on ranges with values has the turns of the cluster program
variable {turn : ℕ → PartState Int64 → Option (Turn (PartState Int64))}
  (hturn : ∀ k data i j, Filled data i j →
    turn k ⟨data, i, j⟩ = clusterTurn fitting p k ⟨data, i, j⟩)

include hturn in
theorem turn_leave (hfilled : Filled data i i) (hji : j ≤ i) (k : ℕ) :
    turn k ⟨data, i, j⟩ = some (.leave ⟨data, i, j⟩) := by
  rw [hturn k data i j fun c hc => hfilled c ⟨hc.1, hc.2.trans hji⟩, clusterTurn,
    if_neg (by dsimp only; omega)]

variable {o : Option (PartState Int64)}

include hturn in
/-- A value at the upper end stays. -/
theorem loop_high (hij : i < j) (hfilled : Filled data i j) (hr : data j = some r)
    (hle : longCmp p r ≤ 0) (h : Settles (fun k n => whileLoop (turn k) n ⟨data, i, j - 1⟩) o) :
    Settles (fun k n => whileLoop (turn k) n ⟨data, i, j⟩) o := by
  obtain ⟨B, hpass⟩ := scanDown_pass hij hfilled hr hle
  have hfilled' : Filled data i (j - 1) := fun c hc =>
    hfilled c ⟨hc.1, by have := hc.2; omega⟩
  rcases (show i ≤ j - 1 by omega).eq_or_lt with heq | hlt
  · refine .again ⟨B, fun k hk => ?_⟩ h
    rw [← heq] at hpass hfilled' ⊢
    rw [hturn k data i j hfilled]
    simp only [clusterTurn, if_pos hij, hpass k hk, scanDown_end hfilled' (Nat.zero_lt_of_lt hk),
      scanUp_end hfilled' (Nat.zero_lt_of_lt hk), if_neg (lt_irrefl i), bind, Option.bind_some]
  · refine .same ⟨B, fun k hk => ?_⟩ h
    rw [hturn k data i j hfilled, hturn k data i (j - 1) hfilled']
    simp only [clusterTurn, if_pos hij, if_pos hlt, hpass k hk]

include hturn in
/-- A value at the lower end stays. -/
theorem loop_low (hij : i < j) (hfilled : Filled data i j) (hr : data j = some r)
    (hgt : 0 < longCmp p r) (hx : data i = some x) (hle : 0 ≤ longCmp p x)
    (h : Settles (fun k n => whileLoop (turn k) n ⟨data, i + 1, j⟩) o) :
    Settles (fun k n => whileLoop (turn k) n ⟨data, i, j⟩) o := by
  obtain ⟨B, hpass⟩ := scanUp_pass hij hfilled hx hle
  have hfilled' : Filled data (i + 1) j := fun c hc =>
    hfilled c ⟨by have := hc.1; omega, hc.2⟩
  rcases (show i + 1 ≤ j by omega).eq_or_lt with heq | hlt
  · refine .again ⟨B, fun k hk => ?_⟩ h
    rw [heq] at hpass hfilled' ⊢
    rw [hturn k data i j hfilled]
    simp only [clusterTurn, if_pos hij, hpass k hk,
      scanDown_stay hr hgt (Nat.zero_lt_of_lt hk),
      scanUp_end hfilled' (Nat.zero_lt_of_lt hk), if_neg (lt_irrefl j), bind, Option.bind_some]
  · refine .same ⟨B, fun k hk => ?_⟩ h
    have hk := Nat.zero_lt_of_lt hk
    rw [hturn k data i j hfilled, hturn k data (i + 1) j hfilled']
    simp only [clusterTurn, if_pos hij, if_pos hlt, scanDown_stay hr hgt hk,
      hpass k ‹_›, bind, Option.bind_some]

include hturn in
/-- Two values at the ends change places. -/
theorem turn_swap (hij : i < j) (hfilled : Filled data i j) (hr : data j = some r)
    (hgt : 0 < longCmp p r) (hx : data i = some x) (hlt : longCmp p x < 0) {k : ℕ} (hk : 0 < k) :
    turn k ⟨data, i, j⟩ =
      (swapBy fitting data i j).map fun data => .again ⟨data, i + 1, j - 1⟩ := by
  rw [hturn k data i j hfilled]
  simp only [clusterTurn, if_pos hij, scanDown_stay hr hgt hk, scanUp_stay hx hlt hk, bind,
    Option.bind_some, Option.map_eq_bind]
  rfl

/-- From this window on the loop ends where the meeting is, or stops at the first value moved up
that is no `int`; the indexes are the same or, at a value below the pivot, have crossed. -/
def Ends (turn : ℕ → PartState Int64 → Option (Turn (PartState Int64))) (g : Cells Int64)
    (low : ℤ) (p : Int64) (below : List Int64) (x : Int64) (ys above : List Int64)
    (m : Meeting Int64) : Prop :=
  ∃ i', (i' = low + 1 + m.below.length ∨
      i' = low + 1 + m.below.length + 1 ∧ 0 < longCmp p m.mid) ∧
    ∀ i j, i = low + 1 + below.length → j = i + ys.length →
      Settles (fun k n => whileLoop (turn k) n
        ⟨fill g low (p :: (below ++ x :: (ys ++ above))), i, j⟩)
        (if ∀ v ∈ m.moved, FitsInt v then
          some ⟨fill g low (p :: (m.below ++ m.mid :: m.above)), i', low + 1 + m.below.length⟩
        else none)

section Window

variable {below w t : List Int64} (hi : i = low + 1 + below.length)

include hi

theorem window_first : fill g low (p :: (below ++ x :: t)) i = some x := by
  apply fill_get (a := p :: below)
  rw [List.length_cons]
  omega

theorem window_last (hj : j = i + 1 + w.length) :
    fill g low (p :: (below ++ x :: (w ++ r :: t))) j = some r := by
  have hassoc : p :: (below ++ x :: (w ++ r :: t)) = (p :: (below ++ x :: w)) ++ r :: t := by
    simp
  rw [hassoc]
  apply fill_get
  simp only [List.length_cons, List.length_append]
  omega

theorem window_filled (hj : j = i + w.length) :
    Filled (fill g low (p :: (below ++ x :: (w ++ t)))) i j := by
  apply fill_filled (by omega)
  simp only [List.length_cons, List.length_append]
  omega

end Window

include hturn in
/-- The two values found change places, if the first of them is an `int`. -/
theorem loop_swap {below w t : List Int64} (hi : i = low + 1 + below.length)
    (hj : j = i + 1 + w.length) (hgt : 0 < longCmp p r) (hlt : longCmp p x < 0)
    (hfits : FitsInt x → Settles (fun k n => whileLoop (turn k) n
      ⟨fill g low (p :: (below ++ r :: (w ++ x :: t))), i + 1, j - 1⟩) o)
    (hwide : ¬ FitsInt x → o = none) :
    Settles (fun k n => whileLoop (turn k) n
      ⟨fill g low (p :: (below ++ x :: (w ++ r :: t))), i, j⟩) o := by
  have hfilled : Filled (fill g low (p :: (below ++ x :: (w ++ r :: t)))) i j := by
    apply fill_filled (by omega)
    simp only [List.length_cons, List.length_append]
    omega
  have hrun : ∀ k, 0 < k → _ := fun k hk =>
    turn_swap hturn (by omega) hfilled (window_last hi hj) hgt (window_first hi) hlt hk
  have hfirst : i = low + (p :: below).length := by
    rw [List.length_cons]
    omega
  have hswap := swapBy_fill (g := g) (b := w) (c := t) (x := x) (y := r) hfirst hj
  rw [List.cons_append] at hswap
  by_cases hx : FitsInt x
  · apply Settles.again _ (hfits hx)
    refine ⟨0, fun k hk => ?_⟩
    rw [hrun k hk, hswap, if_pos hx]
    rfl
  · rw [hwide hx]
    apply Settles.stop
    refine ⟨0, fun k hk => ?_⟩
    rw [hrun k hk, hswap, if_neg hx]
    rfl

include hturn in
variable (g low) in
theorem loop_ends (below : List Int64) (x : Int64) (ys above : List Int64) :
    Ends turn g low p below x ys above (meet longCmp p below x ys above) := by
  induction below, x, ys, above using meet_induction (f := longCmp) (p := p) with
  | met below x above =>
    refine ⟨low + 1 + below.length, .inl rfl, fun i j hi hj => ?_⟩
    rw [List.length_nil] at hj
    obtain rfl : j = i := by omega
    rw [if_pos (by simp), ← hi]
    apply Settles.leave
    exact ⟨0, fun k _ => turn_leave hturn (window_filled (w := []) hi (by simp)) le_rfl k⟩
  | high below x ys r above m hr ih =>
    obtain ⟨i', hi', ih⟩ := ih
    refine ⟨i', hi', fun i j hi hj => ?_⟩
    have hfilled := window_filled (g := g) (p := p) (x := x) (t := above) hi hj
    rw [List.length_append, List.length_singleton] at hj
    rw [List.append_assoc, List.singleton_append] at hfilled ⊢
    apply loop_high hturn (by omega) hfilled (window_last hi (by omega)) hr
    exact ih i (j - 1) hi (by omega)
  | lowLast below x r above hr hx =>
    refine ⟨low + 1 + (below ++ [x]).length, .inl rfl, fun i j hi hj => ?_⟩
    have hfilled := window_filled (g := g) (p := p) (x := x) (t := above) hi hj
    rw [List.length_singleton] at hj
    apply loop_low hturn (by omega) hfilled (window_last (w := []) hi (by simpa using hj)) hr
      (window_first hi) hx
    have hend : low + 1 + ((below ++ [x]).length : ℤ) = j := by
      rw [List.length_append, List.length_singleton]
      omega
    obtain rfl : i + 1 = j := by omega
    rw [if_pos (by simp), hend]
    apply Settles.leave
    refine ⟨0, fun k _ => ?_⟩
    rw [turn_leave hturn (fun c hc => hfilled c ⟨by have := hc.1; omega, hc.2⟩) le_rfl k]
    simp
  | low below x y ys r above m hr hx ih =>
    obtain ⟨i', hi', ih⟩ := ih
    refine ⟨i', hi', fun i j hi hj => ?_⟩
    have hfilled := window_filled (g := g) (p := p) (x := x) (t := above) hi hj
    rw [List.length_cons, List.length_append, List.length_singleton] at hj
    rw [List.cons_append, List.append_assoc, List.singleton_append] at hfilled ⊢
    apply loop_low hturn (by omega) hfilled (window_last (w := y :: ys) hi ?_) hr
      (window_first hi) hx
    · have hnext := ih (i + 1) j (by rw [List.length_append, List.length_singleton]; omega)
        (by rw [List.length_append, List.length_singleton]; omega)
      rw [List.append_assoc, List.append_assoc, List.singleton_append, List.singleton_append]
        at hnext
      exact hnext
    · rw [List.length_cons]
      omega
  | cross below x r above hr hx =>
    refine ⟨low + 1 + below.length + 1, .inr ⟨rfl, hr⟩, fun i j hi hj => ?_⟩
    rw [List.length_singleton] at hj
    apply loop_swap hturn hi (w := []) (by simpa using hj) hr hx
    · intro hfits
      rw [if_pos (by simpa using hfits), ← hi]
      have hend : i = j - 1 := by omega
      apply Settles.leave
      refine ⟨0, fun k _ => ?_⟩
      rw [← hend]
      exact turn_leave hturn (fill_filled (by omega) (by simp; omega)) (by omega) k
    · intro hwide
      exact if_neg (by simpa using hwide)
  | swap below x y ys r above m hr hx ih =>
    obtain ⟨i', hi', ih⟩ := ih
    refine ⟨i', hi', fun i j hi hj => ?_⟩
    rw [List.length_cons, List.length_append, List.length_singleton] at hj
    rw [List.cons_append, List.append_assoc, List.singleton_append]
    apply loop_swap hturn hi (w := y :: ys) (by rw [List.length_cons]; omega) hr hx
    · intro hfits
      have hnext := ih (i + 1) (j - 1) (by rw [List.length_append, List.length_singleton]; omega)
        (by omega)
      rw [List.append_assoc, List.singleton_append] at hnext
      simp only [List.forall_mem_cons, hfits, true_and]
      exact hnext
    · intro hwide
      exact if_neg fun h => hwide (h x List.mem_cons_self)

end Loop

/-! ### Both partitions -/

/-- The values of a list without a last window. -/
theorem window_whole (ys : List Int64) : p :: ([] ++ x :: (ys ++ [])) = p :: x :: ys := by simp

/-- The meeting of all values behind the pivot. -/
theorem loop_whole (g : Cells Int64) (low : ℤ) (p x : Int64)
    {turn : ℕ → PartState Int64 → Option (Turn (PartState Int64))}
    (hturn : ∀ k data i j, Filled data i j →
      turn k ⟨data, i, j⟩ = clusterTurn fitting p k ⟨data, i, j⟩) (ys : List Int64) :
    let m := meet longCmp p [] x ys []
    ∃ i', (i' = low + 1 + m.below.length ∨ i' = low + 1 + m.below.length + 1 ∧
        0 < longCmp p m.mid) ∧
      ∃ B, ∀ k, B < k → whileLoop (turn k) k ⟨fill g low (p :: x :: ys), low + 1,
          low + 1 + ys.length⟩ =
        if ∀ v ∈ m.moved, FitsInt v then
          some ⟨fill g low (p :: (m.below ++ m.mid :: m.above)), i', low + 1 + m.below.length⟩
        else none := by
  obtain ⟨i', hi', hends⟩ := loop_ends g low hturn [] x ys []
  obtain ⟨B, hrun⟩ := hends (low + 1) (low + 1 + ys.length) (by simp) rfl
  refine ⟨i', hi', B, fun k hk => ?_⟩
  rw [← hrun k k hk hk, window_whole]

/-- The cells and the index that a split leaves, with the pivot between the sides or not, if the
values moved up are `int`s. -/
def outcome (g : Cells Int64) (low : ℤ) (between : List Int64) (s : Parts Int64) :
    Option (Cells Int64 × ℤ) :=
  if ∀ v ∈ s.moved, FitsInt v then
    some (fill g low (s.left ++ (between ++ s.right)), low + s.left.length)
  else none

/-- The pivot and the value at `j` change places. -/
theorem swapPivot_fill {moved right between : List Int64} (hmoved : ∀ v ∈ moved, FitsInt v)
    (hright : between ++ right = p :: c) (hj : j = low + 1 + b.length) :
    ((swapBy fitting (fill g low (p :: (b ++ y :: c))) low j).bind fun data => some (data, j)) =
      outcome g low between ⟨moved ++ [p], y :: b, right⟩ := by
  have hfirst : low = low + (([] : List Int64).length : ℤ) := by simp
  have hswap := swapBy_fill (g := g) (c := c) (x := p) (y := y) hfirst hj
  rw [List.nil_append, List.nil_append] at hswap
  unfold outcome
  dsimp only
  rw [hswap, hright, List.length_cons]
  by_cases hp : FitsInt p
  · rw [if_pos hp, if_pos (List.forall_mem_append.mpr ⟨hmoved, List.forall_mem_singleton.mpr hp⟩)]
    simp only [Option.bind_some, List.cons_append, Option.some.injEq, Prod.mk.injEq, true_and]
    omega
  · rw [if_neg hp, if_neg fun h => hp (h p (by simp))]
    rfl

/-- The partition of the cluster program on the cells of a list: its split into halves. -/
theorem clusterPartition_fill (hlow : 0 ≤ low) (hmax : low < 2147483647) (ys : List Int64) :
    ∃ B, ∀ k, B < k →
      clusterPartition fitting k (fill g low (p :: x :: ys)) low (low + 1 + ys.length) =
        outcome g low [] ((halving longCmp).parts p x ys) := by
  obtain ⟨i', -, B, hloop⟩ := @loop_whole g low p x (clusterTurn fitting p)
    (fun _ _ _ _ _ => rfl) ys
  refine ⟨B, fun k hk => ?_⟩
  have hpivot : fill g low (p :: x :: ys) low = some p := fill_get (a := []) (by simp)
  have hint : intOf (low + 1) = some (low + 1) := intOf_eq (by omega) (by omega)
  simp only [clusterPartition, hpivot, hint, hloop k hk, bind, Option.bind_some]
  change _ = outcome g low [] ((meet longCmp p [] x ys []).halves longCmp p)
  generalize meet longCmp p [] x ys [] = m
  have hmid : fill g low (p :: (m.below ++ m.mid :: m.above)) (low + 1 + m.below.length) =
      some m.mid := window_first rfl
  unfold Meeting.halves
  by_cases hmoved : ∀ v ∈ m.moved, FitsInt v
  · rw [if_pos hmoved, Option.bind_some]
    simp only [hmid, Option.bind_some]
    split_ifs with hlt
    · exact swapPivot_fill hmoved rfl rfl
    · rw [outcome, if_pos hmoved, List.length_cons]
      simp only [List.nil_append, List.cons_append, Option.some.injEq, Prod.mk.injEq, true_and]
      omega
  · rw [if_neg hmoved, Option.bind_none, outcome, if_neg]
    exact fun h => hmoved fun v hv => h v (moved_halves longCmp p m v hv)

/-- What follows the stand-alone loop, on the cells of a meeting. -/
theorem placePivot_fill {m : Meeting Int64} {i' : ℤ} (hmoved : ∀ v ∈ m.moved, FitsInt v)
    (hbelow : ∀ v ∈ m.below, 0 ≤ longCmp p v)
    (hi' : i' = low + 1 + m.below.length ∨ i' = low + 1 + m.below.length + 1 ∧
      0 < longCmp p m.mid) :
    placePivot fitting (fill g low (p :: (m.below ++ m.mid :: m.above))) low i'
        (low + 1 + m.below.length) = outcome g low [p] (m.around longCmp p) := by
  have hmid : fill g low (p :: (m.below ++ m.mid :: m.above)) (low + 1 + m.below.length) =
      some m.mid := window_first rfl
  have hpivot : fill g low (p :: (m.below ++ m.mid :: m.above)) low = some p :=
    fill_get (a := []) (by simp)
  have hmeet : ¬ 0 < longCmp p m.mid → i' = low + 1 + m.below.length := fun h =>
    hi'.resolve_right fun h' => h h'.2
  have hbefore : ∀ init c, m.below = init ++ [c] →
      low + 1 + (m.below.length : ℤ) - 1 = low + 1 + init.length ∧
        fill g low (p :: (m.below ++ m.mid :: m.above)) (low + 1 + init.length) = some c := by
    intro init c hinit
    constructor
    · rw [hinit, List.length_append, List.length_singleton]
      omega
    · rw [hinit, List.append_assoc]
      exact window_first rfl
  unfold placePivot
  simp only [hpivot, hmid, bind, Option.bind_some]
  apply around_cases longCmp p m (P := fun s => _ = outcome g low [p] s)
  · intro hgt
    have hright : [p] ++ m.above = p :: m.above := rfl
    rw [← swapPivot_fill hmoved hright rfl]
    rcases hi' with hi' | ⟨hi', -⟩
    · rw [if_pos hi', if_pos hgt]
    · rw [if_neg (by omega), if_pos (by omega)]
  · -- nothing is below: the pivot itself is read at `j - 1`
    intro hlt hnil
    have hfirst : low + 1 + (m.below.length : ℤ) - 1 = low := by
      rw [hnil, List.length_nil]
      omega
    rw [if_pos (hmeet (by omega)), if_neg (by omega), if_pos hlt, hfirst, hpivot, Option.bind_some,
      if_neg (longCmp_comparison.self p).le.not_gt, outcome, if_pos hmoved, hnil]
    simp
  · intro init c hlt hinit hgt
    obtain ⟨hlast, hcell⟩ := hbefore init c hinit
    have hright : [p] ++ m.mid :: m.above = p :: m.mid :: m.above := rfl
    rw [if_pos (hmeet (by omega)), if_neg (by omega), if_pos hlt, hlast, hcell, Option.bind_some,
      if_pos hgt, ← swapPivot_fill hmoved hright rfl, hinit, List.append_assoc]
    rfl
  · intro init c hlt hinit hle
    obtain ⟨hlast, hcell⟩ := hbefore init c hinit
    obtain rfl : p = c := eq_of_longCmp (le_antisymm hle (hbelow c (by simp [hinit])))
    rw [if_pos (hmeet (by omega)), if_neg (by omega), if_pos hlt, hlast, hcell, Option.bind_some,
      if_neg (not_lt.mpr hle), outcome, if_pos hmoved, hinit, List.length_cons]
    simp only [List.append_assoc, List.cons_append, Option.some.injEq, Prod.mk.injEq, true_and]
    omega
  · intro heq
    obtain hmid := eq_of_longCmp heq
    rw [if_pos (hmeet (by omega)), if_neg (by omega), if_neg (by omega), outcome, if_pos hmoved,
      List.length_cons, ← hmid]
    simp only [List.cons_append, List.nil_append, Option.some.injEq, Prod.mk.injEq, true_and]
    omega

theorem partitionTurn_filled {k : ℕ} (hfilled : Filled data i j) :
    partitionTurn fitting p k ⟨data, i, j⟩ = clusterTurn fitting p k ⟨data, i, j⟩ := by
  unfold partitionTurn clusterTurn
  dsimp only
  by_cases hij : i < j
  · rw [if_pos hij, if_pos hij, scanDown_eq hij.le hfilled]
    cases hdown : whileLoop (Cluster.scanDown longCmp data p i) k j with
    | none => rfl
    | some j' =>
      obtain ⟨hij', hj'⟩ := scanDown_range hij.le hdown
      simp only [bind, Option.bind_some]
      rw [scanUp_eq hij' fun c hc => hfilled c ⟨hc.1, hc.2.trans hj'⟩]
  · rw [if_neg hij, if_neg hij]

/-- The stand-alone partition on the cells of a list: its split around the pivot. -/
theorem partitionBy_fill (hlow : 0 ≤ low) (hmax : low < 2147483647) (ys : List Int64) :
    ∃ B, ∀ k, B < k →
      partitionBy fitting k (fill g low (p :: x :: ys)) low (low + 1 + ys.length) =
        outcome g low [p] ((pivoting longCmp).parts p x ys) := by
  obtain ⟨i', hi', B, hloop⟩ := @loop_whole g low p x (partitionTurn fitting p)
    (fun _ _ _ _ => partitionTurn_filled) ys
  refine ⟨B, fun k hk => ?_⟩
  have hpivot : fill g low (p :: x :: ys) low = some p := fill_get (a := []) (by simp)
  have hint : intOf (low + 1) = some (low + 1) := intOf_eq (by omega) (by omega)
  obtain ⟨hbelow, -⟩ := meet_sides (f := longCmp) (p := p) [] x ys []
    (fun _ h => absurd h List.not_mem_nil) fun _ h => absurd h List.not_mem_nil
  simp only [partitionBy, hpivot, hint, hloop k hk, bind, Option.bind_some]
  change _ = outcome g low [p] ((meet longCmp p [] x ys []).around longCmp p)
  generalize meet longCmp p [] x ys [] = m at hi' hbelow
  by_cases hmoved : ∀ v ∈ m.moved, FitsInt v
  · rw [if_pos hmoved, Option.bind_some]
    exact placePivot_fill hmoved hbelow hi'
  · rw [if_neg hmoved, Option.bind_none, outcome, if_neg]
    exact fun h => hmoved fun v hv => h v (moved_around longCmp p m v hv)

end MemoryLeak.Standalone
