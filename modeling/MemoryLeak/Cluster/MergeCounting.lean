import MemoryLeak.Cluster.QuickSort
import MemoryLeak.GroupBy
import Mathlib.Data.BitVec
import Mathlib.Data.Prod.Lex
import Mathlib.Data.List.Lex
import Mathlib.Algebra.Group.Pi.Basic
import Mathlib.Algebra.BigOperators.Pi
import Mathlib.Data.Fin.VecNotation
import Mathlib.Tactic.FinCases

/-!
# Merging counting rows

`lcs_merge005_list`: the rows of a list are sorted by date and hour, and each run of
rows with one date and hour is summed into its first row, which is printed.
-/
namespace MemoryLeak.Cluster
open MemoryLeak.CBytes MemoryLeak.CText MemoryLeak.Loops MemoryLeak.Sorting MemoryLeak.GroupBy

/-- `LCS_MERGE_COUNTING`, its strings terminated. -/
structure LcsMergeCounting where
  date : CStr 12
  hour : CStr 4
  totalcall : BitVec 32
  totalfullchannel : BitVec 32
  viettelauto : BitVec 32
  viettelfull : BitVec 32
  mobileauto : BitVec 32
  mobilefull : BitVec 32
  vinaauto : BitVec 32
  vinafull : BitVec 32

namespace LcsMergeCounting

/-- `arr[m]->totalcall += arr[l]->totalcall`, and the other counters. -/
def add (a b : LcsMergeCounting) : LcsMergeCounting where
  date := a.date
  hour := a.hour
  totalcall := a.totalcall + b.totalcall
  totalfullchannel := a.totalfullchannel + b.totalfullchannel
  viettelauto := a.viettelauto + b.viettelauto
  viettelfull := a.viettelfull + b.viettelfull
  mobileauto := a.mobileauto + b.mobileauto
  mobilefull := a.mobilefull + b.mobilefull
  vinaauto := a.vinaauto + b.vinaauto
  vinafull := a.vinafull + b.vinafull

/-- The counters in the order in which they are printed. -/
def counts (r : LcsMergeCounting) : Fin 8 → BitVec 32 :=
  ![r.totalcall, r.totalfullchannel, r.viettelauto, r.viettelfull, r.mobileauto, r.mobilefull,
    r.vinaauto, r.vinafull]

/-- What `%s` and `%d` print of the row. -/
def fields (r : LcsMergeCounting) : List Bytes :=
  r.date.bytes :: r.hour.bytes :: List.ofFn fun c => printD (r.counts c).toInt

/-- The line `"%s\t%s\t%d\t%d\t%d\t%d\t%d\t%d\t%d\t%d\n"`. -/
def line (r : LcsMergeCounting) : Bytes := [9].intercalate r.fields ++ [10]

end LcsMergeCounting

def lcsMergeCountingCb : LcsMergeCounting → LcsMergeCounting → ℤ :=
  thenBy (fun a b => strcmp a.date.bytes b.date.bytes) fun a b => strcmp a.hour.bytes b.hour.bytes

/-- A turn of the search for the last row with the date and hour of row `i`. -/
def groupTurn (arr : Cells LcsMergeCounting) (n i : ℤ) : Option (Turn ℤ) :=
  if i = n - 1 then some (.leave i)
  else do
    let a ← arr i
    let b ← arr (i + 1)
    if strcmp a.date.bytes b.date.bytes ≠ 0 then some (.leave i)
    else if strcmp a.hour.bytes b.hour.bytes ≠ 0 then some (.leave i)
    else some (.again (i + 1))

structure SumState where
  arr : Cells LcsMergeCounting
  l : ℤ

/-- A turn of `for(l = m+1; l <= i; ++l)`. -/
def sumTurn (m i : ℤ) (s : SumState) : Option (Turn SumState) :=
  if s.l ≤ i then do
    let x ← s.arr m
    let y ← s.arr s.l
    some (.again ⟨Function.update s.arr m (some (x.add y)), s.l + 1⟩)
  else some (.leave s)

structure MergeState where
  arr : Cells LcsMergeCounting
  i : ℤ
  fp : Bytes

/-- A turn of `for(i = 0; i < n ; )`. -/
def mergeTurn (n : ℤ) (fuel : ℕ) (s : MergeState) : Option (Turn MergeState) :=
  if s.i < n then do
    let i ← whileLoop (groupTurn s.arr n) fuel s.i
    let sums ← whileLoop (sumTurn s.i i) fuel ⟨s.arr, s.i + 1⟩
    let x ← sums.arr s.i
    some (.again ⟨sums.arr, i + 1, s.fp ++ x.line⟩)
  else some (.leave s)

/-- The text of the file afterwards. The rows stand for the distinct nodes that the
pointers of `arr` point to; `n + 1` of these are allocated. -/
def lcsMerge005List (fuel : ℕ) (root : List LcsMergeCounting) (n : ℤ) : Option Bytes := do
  let _ ← intOf (n + 1)
  let arr ← lcsQuickSortExt lcsMergeCountingCb fuel (ofList root) 0 (root.length - 1)
  let s ← whileLoop (mergeTurn n fuel) fuel ⟨arr, 0, []⟩
  some s.fp

/-! ### Keys and counters -/

namespace LcsMergeCounting

/-- What `lcs_merge_counting_cb` compares, as an ordered value. -/
def key (r : LcsMergeCounting) : List ℕ ×ₗ List ℕ := toLex (codes r.date.bytes, codes r.hour.bytes)

/-- A row as a key with an amount. -/
def pair (r : LcsMergeCounting) : (List ℕ ×ₗ List ℕ) × (Fin 8 → BitVec 32) := (r.key, r.counts)

theorem key_eq_iff {a b : LcsMergeCounting} :
    a.key = b.key ↔ a.date = b.date ∧ a.hour = b.hour := by
  rw [key, key, toLex.injective.eq_iff, Prod.mk.injEq, CStr.codes_inj, CStr.codes_inj]

theorem pair_injective : Function.Injective pair := by
  intro a b h
  obtain ⟨hkey, hcounts⟩ := Prod.ext_iff.mp h
  obtain ⟨hdate, hhour⟩ := key_eq_iff.mp hkey
  have hcounters := fun c => congrFun hcounts c
  cases a
  cases b
  simp only [pair, counts, Fin.forall_fin_succ] at hcounters
  simp_all

@[simp] theorem add_pair (a b : LcsMergeCounting) :
    (a.add b).pair = (a.key, a.counts + b.counts) := by
  have hcounts : (a.add b).counts = a.counts + b.counts := by
    funext c
    fin_cases c <;> rfl
  rw [pair, hcounts]
  rfl

end LcsMergeCounting

open LcsMergeCounting

theorem lcsMergeCountingCb_isComparison : IsComparison lcsMergeCountingCb :=
  (strcmp_isComparison.comap fun r : LcsMergeCounting => r.date.bytes).thenBy
    (strcmp_isComparison.comap fun r : LcsMergeCounting => r.hour.bytes)

/-- The callback compares keys. -/
theorem lcsMergeCountingCb_nonpos_iff (a b : LcsMergeCounting) :
    lcsMergeCountingCb a b ≤ 0 ↔ a.key ≤ b.key := by
  rw [lcsMergeCountingCb, thenBy_le_iff, (strcmp_sign _ _).1, (strcmp_sign _ _).2,
    strcmp_nonpos_iff, key, key, Prod.Lex.toLex_le_toLex]

theorem lcsMergeCountingCb_neg_iff (a b : LcsMergeCounting) :
    lcsMergeCountingCb a b < 0 ↔ a.key < b.key := by
  have hswap := lcsMergeCountingCb_isComparison.swap b a
  rw [← not_le, ← not_le, ← lcsMergeCountingCb_nonpos_iff, hswap]

/-! ### The loops -/

section Loops

variable {arr : Cells LcsMergeCounting} {n i : ℤ}

/-- Rows in a part of the array, from index `i` on. -/
def HoldsFrom (arr : Cells LcsMergeCounting) (i : ℤ) (l : List LcsMergeCounting) : Prop :=
  ∀ k < l.length, arr (i + k) = l[k]?

theorem HoldsFrom.head {x : LcsMergeCounting} {l : List LcsMergeCounting}
    (h : HoldsFrom arr i (x :: l)) : arr i = some x := by
  simpa using h 0 (by simp)

theorem HoldsFrom.append_right {l l' : List LcsMergeCounting} (h : HoldsFrom arr i (l ++ l')) :
    HoldsFrom arr (i + l.length) l' := by
  intro k hk
  have hcell := h (l.length + k) (by simp; omega)
  rw [List.getElem?_append_right (by omega), Nat.add_sub_cancel_left] at hcell
  rw [← hcell]
  congr 1
  push_cast
  omega

theorem HoldsFrom.append_left {l l' : List LcsMergeCounting} (h : HoldsFrom arr i (l ++ l')) :
    HoldsFrom arr i l := by
  intro k hk
  rw [h k (by simp; omega), List.getElem?_append_left hk]

theorem HoldsFrom.tail {x : LcsMergeCounting} {l : List LcsMergeCounting}
    (h : HoldsFrom arr i (x :: l)) : HoldsFrom arr (i + 1) l :=
  HoldsFrom.append_right (l := [x]) h

theorem HoldsFrom.update {l : List LcsMergeCounting} (h : HoldsFrom arr i l) {m : ℤ} (hm : m < i)
    (x : Option LcsMergeCounting) : HoldsFrom (Function.update arr m x) i l := by
  intro k hk
  rw [Function.update_of_ne (by omega), h k hk]

/-- Before the last row the search goes on exactly over an equal key. -/
theorem groupTurn_eq {x y : LcsMergeCounting} (hi : i ≠ n - 1) (hx : arr i = some x)
    (hy : arr (i + 1) = some y) :
    groupTurn arr n i = some (if y.key = x.key then .again (i + 1) else .leave i) := by
  simp only [groupTurn, if_neg hi, hx, hy, bind, Option.bind_some]
  by_cases hkey : y.key = x.key
  · obtain ⟨hdate, hhour⟩ := key_eq_iff.mp hkey
    rw [if_neg (not_not.mpr (CStr.strcmp_eq_zero_iff.mpr hdate.symm)),
      if_neg (not_not.mpr (CStr.strcmp_eq_zero_iff.mpr hhour.symm)), if_pos hkey]
  · rw [if_neg hkey]
    by_cases hdate : x.date = y.date
    · have hhour : x.hour ≠ y.hour := fun h => hkey (key_eq_iff.mpr ⟨hdate.symm, h.symm⟩)
      rw [if_neg (not_not.mpr (CStr.strcmp_eq_zero_iff.mpr hdate)),
        if_pos (mt CStr.strcmp_eq_zero_iff.mp hhour)]
    · rw [if_pos (mt CStr.strcmp_eq_zero_iff.mp hdate)]

/-- The search ends at the last row of the first run of equal keys. -/
theorem groupLoop_spec (x : LcsMergeCounting) (l : List LcsMergeCounting)
    (harr : HoldsFrom arr i (x :: l)) (hn : n = i + (x :: l).length) :
    ∃ run rest, l = run ++ rest ∧ (∀ a ∈ run, a.key = x.key) ∧ (∀ a ∈ rest.head?, a.key ≠ x.key) ∧
      ∀ fuel, l.length < fuel → whileLoop (groupTurn arr n) fuel i = some (i + run.length) := by
  induction l generalizing x i with
  | nil =>
    refine ⟨[], [], rfl, by simp, by simp, fun fuel hfuel => ?_⟩
    have hlast : i = n - 1 := by simp at hn; omega
    have hleave : groupTurn arr n i = some (.leave i) := if_pos hlast
    rw [whileLoop_leave hleave (by omega)]
    simp
  | cons y l ih =>
    have hlast : i ≠ n - 1 := by simp at hn; omega
    have hturn := groupTurn_eq hlast harr.head harr.tail.head
    by_cases hkey : y.key = x.key
    · obtain ⟨run, rest, rfl, hrun, hrest, hloop⟩ := ih y harr.tail (by simp at hn ⊢; omega)
      refine ⟨y :: run, rest, rfl, ?_, fun a ha => hkey ▸ hrest a ha, fun fuel hfuel => ?_⟩
      · intro a ha
        rcases List.mem_cons.mp ha with rfl | ha
        · exact hkey
        · exact (hrun a ha).trans hkey
      · rw [List.length_cons] at hfuel
        rw [if_pos hkey] at hturn
        rw [whileLoop_again hturn (by omega), hloop (fuel - 1) (by omega)]
        simp
        omega
    · refine ⟨[], y :: l, rfl, by simp, by simpa using hkey, fun fuel hfuel => ?_⟩
      rw [if_neg hkey] at hturn
      rw [whileLoop_leave hturn (by omega)]
      simp

/-- The other rows of a run are added to its first. -/
theorem sumLoop_spec {m : ℤ} (run : List LcsMergeCounting) (x : LcsMergeCounting)
    (hm : arr m = some x) (hmi : m < i) (hrun : HoldsFrom arr i run) {fuel : ℕ}
    (hfuel : run.length < fuel) :
    whileLoop (sumTurn m (i + run.length - 1)) fuel ⟨arr, i⟩ =
      some ⟨Function.update arr m (some (run.foldl add x)), i + run.length⟩ := by
  induction run generalizing arr i x fuel with
  | nil =>
    have hleave : sumTurn m (i + ([] : List LcsMergeCounting).length - 1) ⟨arr, i⟩ =
        some (.leave ⟨arr, i⟩) := by simp [sumTurn]
    rw [whileLoop_leave hleave (by omega)]
    simp [← hm]
  | cons y run ih =>
    rw [List.length_cons] at hfuel ⊢
    have hturn : sumTurn m (i + (run.length + 1 : ℕ) - 1) ⟨arr, i⟩ =
        some (.again ⟨Function.update arr m (some (x.add y)), i + 1⟩) := by
      have hle : i ≤ i + (run.length + 1 : ℕ) - 1 := by omega
      simp only [sumTurn, if_pos hle, hm, hrun.head, bind, Option.bind_some]
    have hnext := ih (x.add y) (Function.update_self m _ arr) (by omega)
      (hrun.tail.update (by omega) (some (x.add y))) (show run.length < fuel - 1 by omega)
    rw [show i + 1 + (run.length : ℤ) = i + (run.length + 1 : ℕ) by push_cast; omega] at hnext
    rw [whileLoop_again hturn (by omega), hnext, Function.update_idem, List.foldl_cons]

theorem foldl_add_pair (run : List LcsMergeCounting) (x : LcsMergeCounting) :
    (run.foldl add x).pair = (x.key, ((x :: run).map counts).sum) := by
  induction run generalizing x with
  | nil => simp [pair]
  | cons y run ih =>
    have hadd := Prod.ext_iff.mp (add_pair x y)
    rw [List.foldl_cons, ih]
    refine Prod.ext hadd.1 ?_
    simp only [List.map_cons, List.sum_cons]
    rw [show (x.add y).counts = x.counts + y.counts from hadd.2, add_assoc]

/-- The loop prints the rows that folding the runs gives. -/
theorem mergeLoop_spec (l : List LcsMergeCounting) (harr : HoldsFrom arr i l)
    (hn : n = i + l.length) (fp : Bytes) :
    ∃ out : List LcsMergeCounting, out.map pair = foldRuns (l.map pair) ∧
      ∀ fuel k, l.length < fuel → l.length < k →
        (whileLoop (mergeTurn n k) fuel ⟨arr, i, fp⟩).map MergeState.fp =
          some (fp ++ out.flatMap line) := by
  induction hlen : l.length using Nat.strongRecOn generalizing l arr i fp with
  | ind len ih =>
    subst hlen
    cases l with
    | nil =>
      refine ⟨[], rfl, fun fuel k hfuel _ => ?_⟩
      have hleave : mergeTurn n k ⟨arr, i, fp⟩ = some (.leave ⟨arr, i, fp⟩) := by
        simp [mergeTurn, hn]
      rw [whileLoop_leave hleave (by omega)]
      simp
    | cons x l =>
      obtain ⟨run, rest, rfl, hrun, hrest, hgroup⟩ := groupLoop_spec x l harr hn
      have htail : HoldsFrom arr (i + 1) (run ++ rest) := harr.tail
      let arr' := Function.update arr i (some (run.foldl add x))
      have hrest' : HoldsFrom arr' (i + 1 + run.length) rest :=
        htail.append_right.update (by omega) _
      obtain ⟨out, hout, hloop⟩ := ih rest.length
        (by rw [List.length_cons, List.length_append]; omega) rest hrest'
        (by simp at hn; omega) (fp ++ (run.foldl add x).line) rfl
      refine ⟨run.foldl add x :: out, ?_, fun fuel k hfuel hk => ?_⟩
      · have hfold : foldRuns ((x :: run).map pair ++ rest.map pair) =
            (x.key, (((x :: run).map pair).map Prod.snd).sum) :: foldRuns (rest.map pair) :=
          foldRuns_run (by simp) (by simpa [pair] using hrun) (by simpa [pair] using hrest)
        rw [List.map_cons, hout, foldl_add_pair, ← List.cons_append, List.map_append, hfold,
          List.map_map]
        rfl
      · simp only [List.length_cons, List.length_append] at hfuel hk
        have hturn : mergeTurn n k ⟨arr, i, fp⟩ =
            some (.again ⟨arr', i + 1 + run.length, fp ++ (run.foldl add x).line⟩) := by
          have hlt : i < n := by simp at hn; omega
          have hsum := sumLoop_spec run x harr.head (show i < i + 1 by omega) htail.append_left
            (show run.length < k by omega)
          rw [show i + 1 + (run.length : ℤ) - 1 = i + run.length by omega] at hsum
          simp only [mergeTurn, if_pos hlt, hgroup k (by simp; omega), hsum, bind, Option.bind_some,
            Function.update_self, Option.some.injEq, Turn.again.injEq, MergeState.mk.injEq,
              and_true]
          exact ⟨rfl, by omega⟩
        rw [whileLoop_again hturn (by omega), hloop (fuel - 1) k (by omega) (by omega),
          List.flatMap_cons, List.append_assoc]

end Loops

/-- Rows are merged into the lines of a list with the sums by key. -/
theorem lcsMerge005List_spec {root : List LcsMergeCounting} (hne : root ≠ [])
    (hint : root.length < 2147483647) :
    ∃ out : List LcsMergeCounting, IsGroupSum (root.map pair) (out.map pair) ∧
      ∀ fuel, root.length < fuel →
        lcsMerge005List fuel root root.length = some (out.flatMap line) := by
  obtain ⟨sorted, hsort, hperm, hsorted⟩ :=
    lcsQuickSortExt_list lcsMergeCountingCb_isComparison hne (by omega)
  have hcells : HoldsFrom (ofList sorted) 0 sorted := by
    intro k _
    rw [zero_add, ofList_natCast]
  obtain ⟨out, hout, hloop⟩ := mergeLoop_spec sorted hcells (n := root.length)
    (by rw [hperm.length_eq]; omega) []
  refine ⟨out, ?_, fun fuel hfuel => ?_⟩
  · have hpair : (sorted.map pair).Pairwise fun a b => a.1 ≤ b.1 :=
      List.pairwise_map.mpr (hsorted.imp fun h => (lcsMergeCountingCb_nonpos_iff _ _).mp h)
    rw [hout]
    exact (foldRuns_isGroupSum hpair).of_perm (hperm.map pair)
  · have hlen := hperm.length_eq
    have hfp := hloop fuel fuel (by omega) (by omega)
    obtain ⟨s, hs, hfp⟩ := Option.map_eq_some_iff.mp hfp
    have hcalloc : intOf ((root.length : ℤ) + 1) = some ((root.length : ℤ) + 1) :=
      intOf_eq (by omega) (by omega)
    simp only [lcsMerge005List, hcalloc, hsort fuel hfuel.le, hs, bind, Option.bind_some, hfp,
      List.nil_append]

/-! ### Group by sum -/

/-- The sum of a counter over rows. -/
def columnSum (l : List LcsMergeCounting) (c : Fin 8) : ℤ := (l.map fun r => (r.counts c).toInt).sum

/-- A row as a key with the values of its counters. -/
def LcsMergeCounting.values (r : LcsMergeCounting) : (List ℕ ×ₗ List ℕ) × (Fin 8 → ℤ) :=
  (r.key, fun c => (r.counts c).toInt)

theorem totalOf_pair (l : List LcsMergeCounting) (k : List ℕ ×ₗ List ℕ) :
    totalOf (l.map pair) k = ((l.filter fun r => r.key = k).map counts).sum := by
  rw [totalOf, List.filter_map, List.map_map]
  exact congrArg (fun rows => (rows.map counts).sum)
    (List.filter_congr fun r _ => decide_eq_decide.mpr Iff.rfl)

theorem totalOf_values (l : List LcsMergeCounting) (k : List ℕ ×ₗ List ℕ) (c : Fin 8) :
    totalOf (l.map values) k c = columnSum (l.filter fun r => r.key = k) c := by
  rw [totalOf, List.filter_map, List.map_map, Pi.list_sum_apply, List.map_map]
  exact congrArg (fun rows => columnSum rows c)
    (List.filter_congr fun r _ => decide_eq_decide.mpr Iff.rfl)

/-- A sum of counters is the sum of their values wrapped around. -/
theorem toInt_sum (l : List LcsMergeCounting) (c : Fin 8) :
    ((l.map counts).sum c).toInt = (columnSum l c).bmod (2 ^ 32) := by
  induction l with
  | nil => rfl
  | cons r l ih =>
    rw [List.map_cons, List.sum_cons, Pi.add_apply, BitVec.toInt_add, ih, Int.add_bmod_bmod]
    rfl

/-- The keys of the lines are those of the rows. -/
theorem isGroupSum_keys {root out : List LcsMergeCounting}
    (h : IsGroupSum (root.map pair) (out.map pair)) (k : List ℕ ×ₗ List ℕ) :
    (∃ l ∈ out, l.key = k) ↔ ∃ r ∈ root, r.key = k := by
  have hkeys := h.keys k
  simp only [List.mem_map, exists_exists_and_eq_and] at hkeys
  exact hkeys

/-- Lines whose counters read as the sums of integers are a list of sums of integers. -/
theorem isGroupSum_values {root out : List LcsMergeCounting}
    (h : IsGroupSum (root.map pair) (out.map pair))
    (hvalue : ∀ l ∈ out, ∀ c,
      (l.counts c).toInt = columnSum (root.filter fun r => r.key = l.key) c) :
    IsGroupSum (root.map values) (out.map values) where
  increasing := by
    have hincreasing := h.increasing
    rw [List.pairwise_map] at hincreasing ⊢
    exact hincreasing
  keys := by
    intro k
    simp only [List.mem_map, exists_exists_and_eq_and]
    exact isGroupSum_keys h k
  total := by
    intro a ha
    obtain ⟨l, hl, rfl⟩ := List.mem_map.mp ha
    ext c
    rw [totalOf_values]
    exact hvalue l hl c

/-- The lines written are strictly increasing, one for each date and hour of the rows,
with the sums of their counters; the totals of the counters are kept. The number of rows and
the one after it are `int`s. -/
theorem merge_is_group_by_sum (root : List LcsMergeCounting) (hne : root ≠ [])
    (hint : root.length < 2147483647)
    (hrange : ∀ r ∈ root, ∀ c, -2 ^ 31 ≤ columnSum (root.filter fun x => x.key = r.key) c ∧
      columnSum (root.filter fun x => x.key = r.key) c < 2 ^ 31) :
    ∃ out : List LcsMergeCounting,
      (∀ fuel, root.length < fuel →
        lcsMerge005List fuel root root.length = some (out.flatMap line)) ∧
      (out.Pairwise fun a b => lcsMergeCountingCb a b < 0) ∧
      (∀ r ∈ root, ∃! l, l ∈ out ∧ l.date = r.date ∧ l.hour = r.hour) ∧
      (∀ l ∈ out, ∃ r ∈ root, r.date = l.date ∧ r.hour = l.hour) ∧
      (∀ l ∈ out, ∀ c, (l.counts c).toInt = columnSum (root.filter fun r => r.key = l.key) c) ∧
      ∀ c, columnSum out c = columnSum root c := by
  obtain ⟨out, hgroup, hrun⟩ := lcsMerge005List_spec hne hint
  have hincreasing : out.Pairwise fun a b => a.key < b.key := by
    have h := hgroup.increasing
    rwa [List.pairwise_map] at h
  have hkeys := isGroupSum_keys hgroup
  have htotal : ∀ l ∈ out, l.counts = totalOf (root.map pair) l.key := fun l hl =>
    hgroup.total l.pair (List.mem_map_of_mem hl)
  have hvalue : ∀ l ∈ out, ∀ c,
      (l.counts c).toInt = columnSum (root.filter fun r => r.key = l.key) c := by
    intro l hl c
    obtain ⟨r, hr, hrl⟩ := (hkeys l.key).mp ⟨l, hl, rfl⟩
    have hbound := hrange r hr c
    rw [hrl] at hbound
    rw [htotal l hl, totalOf_pair, toInt_sum, Int.bmod_eq_of_le (by omega) (by omega)]
  refine ⟨out, hrun, hincreasing.imp fun h => (lcsMergeCountingCb_neg_iff _ _).mpr h, ?_, ?_,
    hvalue, fun c => ?_⟩
  · intro r hr
    obtain ⟨l, hl, hlr⟩ := (hkeys r.key).mpr ⟨r, hr, rfl⟩
    refine ⟨l, ⟨hl, key_eq_iff.mp hlr⟩, fun l' h => ?_⟩
    have hkey : l'.key = l.key := (key_eq_iff.mpr h.2).trans hlr.symm
    exact pair_injective (Prod.ext hkey (by
      show l'.counts = l.counts
      rw [htotal l' h.1, htotal l hl, hkey]))
  · intro l hl
    obtain ⟨r, hr, hrl⟩ := (hkeys l.key).mp ⟨l, hl, rfl⟩
    exact ⟨r, hr, key_eq_iff.mp hrl⟩
  · have hsum := congrFun (isGroupSum_values hgroup hvalue).sum_eq c
    rw [List.map_map, List.map_map, Pi.list_sum_apply, Pi.list_sum_apply, List.map_map,
      List.map_map] at hsum
    exact hsum

theorem merge_is_group_by_sum_sample :
    let row (hour : CStr 4) (totalcall : BitVec 32) : LcsMergeCounting :=
      ⟨⟨[50], by decide, by decide⟩, hour, totalcall, 0, 0, 0, 0, 0, 0, -1⟩
    let midnight : CStr 4 := ⟨[48, 48], by decide, by decide⟩
    let noon : CStr 4 := ⟨[49, 50], by decide, by decide⟩
    let root := [row noon 5, row midnight 1, row noon 7]
    ∃ out : List LcsMergeCounting,
      (∀ fuel, root.length < fuel →
        lcsMerge005List fuel root root.length = some (out.flatMap line)) ∧
      (out.Pairwise fun a b => lcsMergeCountingCb a b < 0) ∧
      (∀ r ∈ root, ∃! l, l ∈ out ∧ l.date = r.date ∧ l.hour = r.hour) ∧
      (∀ l ∈ out, ∃ r ∈ root, r.date = l.date ∧ r.hour = l.hour) ∧
      (∀ l ∈ out, ∀ c, (l.counts c).toInt = columnSum (root.filter fun r => r.key = l.key) c) ∧
      ∀ c, columnSum out c = columnSum root c :=
  merge_is_group_by_sum _ (by simp) (by simp) (by decide +kernel)

/-- No sums come from no rows, and only from none. -/
theorem merged_eq_nil_iff {rows out : List LcsMergeCounting}
    (h : IsGroupSum (rows.map pair) (out.map pair)) : out = [] ↔ rows = [] := by
  have hnil := h.eq_nil_iff
  rwa [List.map_eq_nil_iff, List.map_eq_nil_iff] at hnil

theorem merged_length_le {rows out : List LcsMergeCounting}
    (h : IsGroupSum (rows.map pair) (out.map pair)) : out.length ≤ rows.length := by
  have hlen := h.length_le
  rwa [List.length_map, List.length_map] at hlen

end MemoryLeak.Cluster
