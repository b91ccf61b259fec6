import MemoryLeak.CText
import MemoryLeak.Loops
import Mathlib.Data.Int.Order.Basic
import Mathlib.Data.Set.List

/-!
# Quick sort of pointers

`lcs_partition_ext` and `lcs_quick_sort_ext`, and their copies for `strcmp`, on memory
that may be defined in some cells only: a run that succeeds on memory defined in the
cells of a range has touched no other cell. The indices are `int`s; a sum of them that
overflows has no outcome.
-/
namespace MemoryLeak.Cluster
open MemoryLeak.CBytes MemoryLeak.CText MemoryLeak.Loops MemoryLeak.Sorting

variable {α : Type}

/-- The value of an expression of type `int`. -/
def intOf (x : ℤ) : Option ℤ := if -2147483648 ≤ x ∧ x ≤ 2147483647 then some x else none

theorem intOf_eq {x : ℤ} (h : -2147483648 ≤ x) (h' : x ≤ 2147483647) : intOf x = some x :=
  if_pos ⟨h, h'⟩

/-- An array of pointers; a cell outside of it has no value. -/
abbrev Cells (α : Type) := ℤ → Option α

/-- `tmp = data[i]; data[i] = data[j]; data[j] = tmp`. -/
def swapCells (data : Cells α) (i j : ℤ) : Option (Cells α) := do
  let tmp ← data i
  let x ← data j
  some (Function.update (Function.update data i (some x)) j (some tmp))

/-- A turn of `while ( f(pivot, data[j]) <= 0)`. -/
def scanDown (f : α → α → ℤ) (data : Cells α) (pivot : α) (i j : ℤ) : Option (Turn ℤ) :=
  (data j).map fun x =>
    if f pivot x ≤ 0 then if i < j then .again (j - 1) else .leave j else .leave j

/-- A turn of `while (f(pivot, data[i]) >= 0)`. -/
def scanUp (f : α → α → ℤ) (data : Cells α) (pivot : α) (j i : ℤ) : Option (Turn ℤ) :=
  (data i).map fun x =>
    if 0 ≤ f pivot x then if i < j then .again (i + 1) else .leave i else .leave i

structure PartState (α : Type) where
  data : Cells α
  i : ℤ
  j : ℤ

/-- A turn of `while (i < j)`. -/
def partTurn (f : α → α → ℤ) (pivot : α) (fuel : ℕ) (s : PartState α) :
    Option (Turn (PartState α)) :=
  if s.i < s.j then do
    let j ← whileLoop (scanDown f s.data pivot s.i) fuel s.j
    let i ← whileLoop (scanUp f s.data pivot j) fuel s.i
    if i < j then do
      let data ← swapCells s.data i j
      some (.again ⟨data, i + 1, j - 1⟩)
    else some (.again ⟨s.data, i, j⟩)
  else some (.leave s)

/-- The array afterwards and the index returned. -/
def lcsPartitionExt (f : α → α → ℤ) (fuel : ℕ) (data : Cells α) (low hi : ℤ) :
    Option (Cells α × ℤ) := do
  let pivot ← data low
  let i ← intOf (low + 1)
  let s ← whileLoop (partTurn f pivot fuel) fuel ⟨data, i, hi⟩
  let x ← s.data s.j
  if f x pivot < 0 then do
    let data ← swapCells s.data low s.j
    some (data, s.j)
  else some (s.data, s.j)

/-- The recursion of both sorts, with the partition of each. -/
def sortWith (part : ℕ → Cells α → ℤ → ℤ → Option (Cells α × ℤ)) :
    ℕ → Cells α → ℤ → ℤ → Option (Cells α)
  | 0, _, _, _ => none
  | fuel + 1, arr, low, hi => do
    let (arr, j) ← part (fuel + 1) arr low hi
    let arr ← if low < j - 1 then sortWith part fuel arr low (j - 1) else some arr
    if j < hi then sortWith part fuel arr j hi else some arr

def lcsQuickSortExt (f : α → α → ℤ) : ℕ → Cells α → ℤ → ℤ → Option (Cells α) :=
  sortWith (lcsPartitionExt f)

/-- `lcs_partition`, the copy for `strcmp` of the strings pointed to. -/
def lcsPartition (str : α → Bytes) : ℕ → Cells α → ℤ → ℤ → Option (Cells α × ℤ) :=
  lcsPartitionExt fun a b => strcmp (str a) (str b)

def lcsQuickSort (str : α → Bytes) : ℕ → Cells α → ℤ → ℤ → Option (Cells α) :=
  sortWith (lcsPartition str)

/-! ### Scans and swaps -/

/-- The indices of a range. -/
def within (low hi : ℤ) : Set ℤ := {k | low ≤ k ∧ k ≤ hi}

@[simp] theorem mem_within {low hi k : ℤ} : k ∈ within low hi ↔ low ≤ k ∧ k ≤ hi := Iff.rfl

theorem within_mono {low low' hi hi' : ℤ} (hl : low' ≤ low) (hh : hi ≤ hi') :
    within low hi ⊆ within low' hi' := fun _ hk => ⟨hl.trans hk.1, hk.2.trans hh⟩

/-- Every cell of a range has a value. -/
def Filled (data : Cells α) (low hi : ℤ) : Prop := ∀ k ∈ within low hi, (data k).isSome

/-- The values of a range satisfy `P`. -/
def Among (data : Cells α) (low hi : ℤ) (P : α → Prop) : Prop :=
  ∀ k ∈ within low hi, ∀ x ∈ data k, P x

theorem Filled.get {data : Cells α} {low hi k : ℤ} (h : Filled data low hi) (hl : low ≤ k)
    (hh : k ≤ hi) : ∃ x, data k = some x := Option.isSome_iff_exists.mp (h k ⟨hl, hh⟩)

theorem Among.empty {data : Cells α} {low hi : ℤ} (h : hi < low) (P : α → Prop) :
    Among data low hi P := by
  intro k hk
  rw [mem_within] at hk
  omega

/-- One more cell at the lower end. -/
theorem Among.cons {data : Cells α} {low hi : ℤ} {P : α → Prop} {x : α} (hx : data low = some x)
    (hP : P x) (h : Among data (low + 1) hi P) : Among data low hi P := by
  intro k hk y hy
  rw [mem_within] at hk
  by_cases hkl : k = low
  · rw [hkl, hx] at hy
    cases hy
    exact hP
  · exact h k ⟨by omega, hk.2⟩ y hy

/-- One more cell at the upper end. -/
theorem Among.snoc {data : Cells α} {low hi : ℤ} {P : α → Prop} {x : α} (hx : data hi = some x)
    (hP : P x) (h : Among data low (hi - 1) P) : Among data low hi P := by
  intro k hk y hy
  rw [mem_within] at hk
  by_cases hkl : k = hi
  · rw [hkl, hx] at hy
    cases hy
    exact hP
  · exact h k ⟨hk.1, by omega⟩ y hy

theorem Among.append {data : Cells α} {low mid hi : ℤ} {P : α → Prop}
    (h : Among data low (mid - 1) P) (h' : Among data mid hi P) : Among data low hi P := by
  intro k hk
  rw [mem_within] at hk
  by_cases hkm : k < mid
  · exact h k ⟨hk.1, by omega⟩
  · exact h' k ⟨by omega, hk.2⟩

theorem Among.congr {data data' : Cells α} {low hi : ℤ} {P : α → Prop} (h : Among data low hi P)
    (heq : ∀ k, low ≤ k → k ≤ hi → data' k = data k) : Among data' low hi P := by
  intro k hk x hx
  rw [heq k hk.1 hk.2] at hx
  exact h k hk x hx

/-- A swap of two cells outside of the range. -/
theorem Among.swap {data : Cells α} {low hi i j : ℤ} {P : α → Prop} (h : Among data low hi P)
    (hi' : i < low ∨ hi < i) (hj : j < low ∨ hi < j) : Among (data ∘ Equiv.swap i j) low hi P := by
  refine h.congr fun k hk hk' => ?_
  exact congrArg data (Equiv.swap_apply_of_ne_of_ne (by omega) (by omega))

theorem swapCells_eq {data : Cells α} {i j : ℤ} (hi : (data i).isSome) (hj : (data j).isSome) :
    swapCells data i j = some (data ∘ Equiv.swap i j) := by
  obtain ⟨x, hx⟩ := Option.isSome_iff_exists.mp hi
  obtain ⟨y, hy⟩ := Option.isSome_iff_exists.mp hj
  simp only [swapCells, hx, hy, bind, Option.bind_some, Option.some.injEq]
  funext k
  by_cases hkj : k = j
  · subst hkj
    simp [hx]
  · by_cases hki : k = i
    · subst hki
      simp [hkj, hy]
    · simp [hkj, hki, Equiv.swap_apply_of_ne_of_ne hki hkj]

/-- Scanning down stops at the first value below the pivot or at `i`; what it passed is
not below. -/
theorem scanDown_spec (f : α → α → ℤ) {data : Cells α} (pivot : α) {i j : ℤ} (hij : i ≤ j)
    (hfilled : Filled data i j) (B : ℕ) (hB : (j - i).toNat ≤ B) :
    ∃ j', (∀ n, B < n → whileLoop (scanDown f data pivot i) n j = some j') ∧ i ≤ j' ∧ j' ≤ j ∧
      Among data (j' + 1) j (fun x => f pivot x ≤ 0) ∧
      (i < j' → ∀ x ∈ data j', 0 < f pivot x) := by
  let I : ℤ → Prop := fun k => i ≤ k ∧ k ≤ j ∧ Among data (k + 1) j fun x => f pivot x ≤ 0
  have hturn : ∀ k, I k → (k - i).toNat ≤ B →
      (∃ k', (∀ n, B < n → scanDown f data pivot i k = some (.again k')) ∧ I k' ∧
        (k' - i).toNat < (k - i).toNat) ∨
      ∃ k', (∀ n, B < n → scanDown f data pivot i k = some (.leave k')) ∧
        I k' ∧ (i < k' → ∀ x ∈ data k', 0 < f pivot x) := by
    rintro k ⟨hik, hkj, hamong⟩ -
    obtain ⟨x, hx⟩ := hfilled.get hik hkj
    simp only [scanDown, hx, Option.map_some]
    by_cases hle : f pivot x ≤ 0
    · by_cases hlt : i < k
      · have hnext : Among data (k - 1 + 1) j fun x => f pivot x ≤ 0 := by
          rw [Int.sub_add_cancel]
          exact .cons hx hle hamong
        exact Or.inl ⟨k - 1, fun _ _ => by rw [if_pos hle, if_pos hlt],
          ⟨by omega, by omega, hnext⟩, by omega⟩
      · exact Or.inr ⟨k, fun _ _ => by rw [if_pos hle, if_neg hlt], ⟨hik, hkj, hamong⟩,
          fun h => absurd h hlt⟩
    · refine Or.inr ⟨k, fun _ _ => by rw [if_neg hle], ⟨hik, hkj, hamong⟩, fun _ y hy => ?_⟩
      rw [hx] at hy
      cases hy
      omega
  obtain ⟨j', hloop, ⟨hij', hj'j, hamong⟩, hstop⟩ := whileLoop_spec
    (fun k => (k - i).toNat) B hturn ⟨hij, le_rfl, .empty (by omega) _⟩ hB
  exact ⟨j', fun n hn => hloop n n hn (by omega), hij', hj'j, hamong, hstop⟩

/-- Scanning up, the other way round. -/
theorem scanUp_spec (f : α → α → ℤ) {data : Cells α} (pivot : α) {i j : ℤ} (hij : i ≤ j)
    (hfilled : Filled data i j) (B : ℕ) (hB : (j - i).toNat ≤ B) :
    ∃ i', (∀ n, B < n → whileLoop (scanUp f data pivot j) n i = some i') ∧ i ≤ i' ∧ i' ≤ j ∧
      Among data i (i' - 1) (fun x => 0 ≤ f pivot x) ∧
      (i' < j → ∀ x ∈ data i', f pivot x < 0) := by
  let I : ℤ → Prop := fun k => i ≤ k ∧ k ≤ j ∧ Among data i (k - 1) fun x => 0 ≤ f pivot x
  have hturn : ∀ k, I k → (j - k).toNat ≤ B →
      (∃ k', (∀ n, B < n → scanUp f data pivot j k = some (.again k')) ∧ I k' ∧
        (j - k').toNat < (j - k).toNat) ∨
      ∃ k', (∀ n, B < n → scanUp f data pivot j k = some (.leave k')) ∧
        I k' ∧ (k' < j → ∀ x ∈ data k', f pivot x < 0) := by
    rintro k ⟨hik, hkj, hamong⟩ -
    obtain ⟨x, hx⟩ := hfilled.get hik hkj
    simp only [scanUp, hx, Option.map_some]
    by_cases hle : 0 ≤ f pivot x
    · by_cases hlt : k < j
      · have hnext : Among data i (k + 1 - 1) fun x => 0 ≤ f pivot x := by
          rw [Int.add_sub_cancel]
          exact .snoc hx hle hamong
        exact Or.inl ⟨k + 1, fun _ _ => by rw [if_pos hle, if_pos hlt],
          ⟨by omega, by omega, hnext⟩, by omega⟩
      · exact Or.inr ⟨k, fun _ _ => by rw [if_pos hle, if_neg hlt], ⟨hik, hkj, hamong⟩,
          fun h => absurd h hlt⟩
    · refine Or.inr ⟨k, fun _ _ => by rw [if_neg hle], ⟨hik, hkj, hamong⟩, fun _ y hy => ?_⟩
      rw [hx] at hy
      cases hy
      omega
  obtain ⟨i', hloop, ⟨hii', hi'j, hamong⟩, hstop⟩ := whileLoop_spec
    (fun k => (j - k).toNat) B hturn ⟨le_rfl, hij, .empty (by omega) _⟩ hB
  exact ⟨i', fun n hn => hloop n n hn (by omega), hii', hi'j, hamong, hstop⟩

/-! ### Partition -/

/-- Between two turns: the values up to `i` are not above the pivot, those behind `j` not
below it. -/
structure PartInv (f : α → α → ℤ) (pivot : α) (arr : Cells α) (low hi : ℤ) (s : PartState α) :
    Prop where
  low_lt_i : low < s.i
  i_le : s.i ≤ s.j + 1
  low_lt_j : low < s.j
  j_le : s.j ≤ hi
  perm : PermutedOn (within (low + 1) hi) arr s.data
  below : Among s.data (low + 1) (s.i - 1) fun x => 0 ≤ f pivot x
  above : Among s.data (s.j + 1) hi fun x => f pivot x ≤ 0

variable {f : α → α → ℤ} {pivot : α} {arr : Cells α} {low hi : ℤ}

theorem Filled.permuted {data : Cells α} {l h : ℤ} (hfilled : Filled arr low hi)
    (hperm : PermutedOn (within l h) arr data) (hl : low ≤ l) (hh : h ≤ hi) :
    Filled data low hi :=
  (hperm.mono (within_mono hl hh)).forall_mem (P := fun v => v.isSome) hfilled

/-- The two values found change places, each on its side of the pivot. -/
theorem PartInv.swap {data : Cells α} {i j : ℤ} {x y : α} (hli : low < i) (hcross : i < j)
    (hjh : j ≤ hi) (hperm : PermutedOn (within (low + 1) hi) arr data)
    (hbelow : Among data (low + 1) (i - 1) fun x => 0 ≤ f pivot x)
    (habove : Among data (j + 1) hi fun x => f pivot x ≤ 0)
    (hx : data i = some x) (hfx : f pivot x < 0) (hy : data j = some y) (hfy : 0 < f pivot y) :
    PartInv f pivot arr low hi ⟨data ∘ Equiv.swap i j, i + 1, j - 1⟩ where
  low_lt_i := by dsimp only; omega
  i_le := by dsimp only; omega
  low_lt_j := by dsimp only; omega
  j_le := by dsimp only; omega
  perm := hperm.trans (.swap data ⟨by omega, by omega⟩ ⟨by omega, by omega⟩)
  below := by
    rw [Int.add_sub_cancel]
    exact .snoc (by simpa using hy) hfy.le (hbelow.swap (by omega) (by omega))
  above := by
    rw [Int.sub_add_cancel]
    exact .cons (by simpa using hx) hfx.le (habove.swap (by omega) (by omega))

/-- The two scans of a turn meet or stop at two values on the wrong sides. -/
theorem partTurn_scans {data : Cells α} {i j : ℤ} (hlt : i < j) (hdata : Filled data i j) (B : ℕ)
    (hB : (j - i).toNat ≤ B) : ∃ i' j', i ≤ i' ∧ i' ≤ j' ∧ j' ≤ j ∧
      Among data i (i' - 1) (fun x => 0 ≤ f pivot x) ∧
      Among data (j' + 1) j (fun x => f pivot x ≤ 0) ∧
      (i' < j' → (∀ x ∈ data i', f pivot x < 0) ∧ ∀ y ∈ data j', 0 < f pivot y) ∧
      ∀ n, B < n → partTurn f pivot n ⟨data, i, j⟩ =
        if i' < j' then do
          let data ← swapCells data i' j'
          some (.again ⟨data, i' + 1, j' - 1⟩)
        else some (.again ⟨data, i', j'⟩) := by
  obtain ⟨j', hdown, hij', hj'j, hpassed, hstop⟩ := scanDown_spec f pivot hlt.le hdata B hB
  obtain ⟨i', hup, hii', hi'j', hpassed', hstop'⟩ := scanUp_spec f pivot hij'
    (fun k hk => hdata k ⟨hk.1, hk.2.trans hj'j⟩) B (by omega)
  refine ⟨i', j', hii', hi'j', hj'j, hpassed', hpassed, ?_, ?_⟩
  · intro hcross
    exact ⟨hstop' hcross, hstop (by omega)⟩
  · intro n hn
    simp only [partTurn, if_pos hlt, hdown n hn, hup n hn, bind, Option.bind_some]

theorem partTurn_spec (hfilled : Filled arr low hi) {s : PartState α}
    (hs : PartInv f pivot arr low hi s) (B : ℕ) (hB : (s.j - s.i).toNat ≤ B) :
    (∃ s', (∀ n, B < n → partTurn f pivot n s = some (.again s')) ∧ PartInv f pivot arr low hi s' ∧
      (s'.j - s'.i).toNat < (s.j - s.i).toNat) ∨
    ∃ s', (∀ n, B < n → partTurn f pivot n s = some (.leave s')) ∧
      PartInv f pivot arr low hi s' ∧ s'.j ≤ s'.i := by
  obtain ⟨data, i, j⟩ := s
  obtain ⟨hli, hij, hlj, hjh, hperm, hbelow, habove⟩ := hs
  simp only at *
  by_cases hlt : i < j
  · have hdata : Filled data low hi := hfilled.permuted hperm (by omega) le_rfl
    obtain ⟨i', j', hii', hi'j', hj'j, hpassed', hpassed, hstop, hrun⟩ :=
      @partTurn_scans _ f pivot data i j hlt
        (fun k hk => hdata k ⟨hli.le.trans hk.1, hk.2.trans hjh⟩) B hB
    have hbelow' : Among data (low + 1) (i' - 1) fun x => 0 ≤ f pivot x := hbelow.append hpassed'
    have habove' : Among data (j' + 1) hi fun x => f pivot x ≤ 0 := by
      refine Among.append ?_ habove
      rwa [Int.add_sub_cancel]
    by_cases hcross : i' < j'
    · obtain ⟨x, hx⟩ := hdata.get (show low ≤ i' by omega) (show i' ≤ hi by omega)
      obtain ⟨y, hy⟩ := hdata.get (show low ≤ j' by omega) (show j' ≤ hi by omega)
      have hswap := swapCells_eq (Option.isSome_of_eq_some hx) (Option.isSome_of_eq_some hy)
      refine Or.inl ⟨⟨data ∘ Equiv.swap i' j', i' + 1, j' - 1⟩, fun n hn => ?_, ?_, ?_⟩
      · rw [hrun n hn, if_pos hcross, hswap]
        rfl
      · exact .swap (by omega) hcross (by omega) hperm hbelow' habove' hx ((hstop hcross).1 x hx) hy
          ((hstop hcross).2 y hy)
      · simp only
        omega
    · have heq : i' = j' := by omega
      subst heq
      refine Or.inl ⟨⟨data, i', i'⟩, fun n hn => by rw [hrun n hn, if_neg hcross], ?_, ?_⟩
      · exact ⟨by simp only; omega, by simp only; omega, by simp only; omega, by simp only; omega,
          hperm, hbelow', habove'⟩
      · simp only
        omega
  · refine Or.inr ⟨⟨data, i, j⟩, fun n hn => by simp only [partTurn, if_neg hlt], ?_, ?_⟩
    · exact ⟨hli, hij, hlj, hjh, hperm, hbelow, habove⟩
    · simp only
      omega

/-- A partition of two cells or more: the index returned is behind the first, the values
before it are not above the pivot and those from it on not below. -/
theorem lcsPartitionExt_spec (hf : IsComparison f) (hfilled : Filled arr low hi) (hlow : 0 ≤ low)
    (hlt : low < hi) (hmax : hi ≤ 2147483647) :
    ∃ arr' j pivot, (∀ n, (hi - low).toNat < n → lcsPartitionExt f n arr low hi = some (arr', j)) ∧
      low < j ∧ j ≤ hi ∧ PermutedOn (within low hi) arr arr' ∧
      Among arr' low (j - 1) (fun x => 0 ≤ f pivot x) ∧
      Among arr' j hi (fun x => f pivot x ≤ 0) := by
  obtain ⟨pivot, hpivot⟩ := hfilled.get le_rfl hlt.le
  have hint : intOf (low + 1) = some (low + 1) := intOf_eq (by omega) (by omega)
  have hinit : PartInv f pivot arr low hi ⟨arr, low + 1, hi⟩ :=
    ⟨by simp only; omega, by simp only; omega, hlt, le_rfl, .refl _ _,
      .empty (by simp only; omega) _, .empty (by simp only; omega) _⟩
  obtain ⟨⟨data, i, j⟩, hloop, ⟨hli, hij, hlj, hjh, hperm, hbelow, habove⟩, hji⟩ :=
    whileLoop_spec (fun s : PartState α => (s.j - s.i).toNat) (hi - low).toNat
      (fun s hs hB => partTurn_spec hfilled hs _ hB) hinit (by simp only; omega)
  simp only at *
  have hdata : Filled data low hi := hfilled.permuted hperm (by omega) le_rfl
  obtain ⟨x, hx⟩ := hdata.get hlj.le hjh
  have hfirst : data low = some pivot := by
    rw [← hpivot]
    exact hperm.outside fun h => by have := h.1; omega
  have hself : f pivot pivot = 0 := hf.self pivot
  have hbelow' : Among data (low + 1) (j - 1) fun x => 0 ≤ f pivot x :=
    fun k hk => hbelow k ⟨hk.1, by have := hk.2; omega⟩
  have hrun : ∀ n, (hi - low).toNat < n → lcsPartitionExt f n arr low hi =
      if f x pivot < 0 then do
        let data ← swapCells data low j
        some (data, j)
      else some (data, j) := by
    intro n hn
    simp only [lcsPartitionExt, hpivot, hint, hloop n n hn (by omega), hx, bind, Option.bind_some]
  by_cases hless : f x pivot < 0
  · have hswap := swapCells_eq (Option.isSome_of_eq_some hfirst) (Option.isSome_of_eq_some hx)
    refine ⟨data ∘ Equiv.swap low j, j, pivot, fun n hn => ?_, hlj, hjh, ?_, ?_, ?_⟩
    · rw [hrun n hn, if_pos hless, hswap]
      rfl
    · exact (hperm.mono (within_mono (by omega) le_rfl)).trans
        (.swap data ⟨le_rfl, hlt.le⟩ ⟨hlj.le, hjh⟩)
    · exact .cons (by simpa using hx) ((hf.swap x pivot).mp hless.le)
        (hbelow'.swap (by omega) (by omega))
    · exact .cons (by simpa using hfirst) hself.le
        (habove.swap (by omega) (by omega))
  · refine ⟨data, j, pivot, fun n hn => ?_, hlj, hjh, ?_, ?_, ?_⟩
    · rw [hrun n hn, if_neg hless]
    · exact hperm.mono (within_mono (by omega) le_rfl)
    · exact .cons hfirst hself.ge hbelow'
    · exact .cons hx ((hf.swap pivot x).mpr (by omega)) habove

/-- The partition of one cell. -/
theorem lcsPartitionExt_single (hf : IsComparison f) (hfilled : Filled arr low low)
    (hlow : 0 ≤ low) (hmax : low < 2147483647) {n : ℕ} (hn : 0 < n) :
    lcsPartitionExt f n arr low low = some (arr, low) := by
  obtain ⟨pivot, hpivot⟩ := hfilled.get le_rfl le_rfl
  have hint : intOf (low + 1) = some (low + 1) := intOf_eq (by omega) (by omega)
  have hleave : partTurn f pivot n ⟨arr, low + 1, low⟩ = some (.leave ⟨arr, low + 1, low⟩) :=
    if_neg (show ¬ low + 1 < low by omega)
  have hself : ¬ f pivot pivot < 0 := by
    rw [hf.self pivot]
    omega
  simp only [lcsPartitionExt, hpivot, hint, whileLoop_leave hleave hn, bind, Option.bind_some,
    if_neg hself]

/-- The index behind the last cell of the largest array is no `int`. -/
theorem lcsPartitionExt_overflow (f : α → α → ℤ) (n : ℕ) (arr : Cells α) (hi : ℤ) :
    lcsPartitionExt f n arr 2147483647 hi = none := by
  have hint : intOf (2147483647 + 1) = none := if_neg (by omega)
  cases hpivot : arr 2147483647 with
  | none => simp only [lcsPartitionExt, hpivot, bind, Option.bind_none]
  | some pivot =>
    simp only [lcsPartitionExt, hpivot, hint, bind, Option.bind_some, Option.bind_none]

/-! ### Quick sort -/

/-- The values of a range do not fall. -/
def SortedOn (f : α → α → ℤ) (arr : Cells α) (low hi : ℤ) : Prop :=
  ∀ i k, low ≤ i → i ≤ k → k ≤ hi → ∀ a ∈ arr i, ∀ b ∈ arr k, f a b ≤ 0

theorem SortedOn.single (hf : IsComparison f) (arr : Cells α) (h : hi ≤ low) :
    SortedOn f arr low hi := by
  intro i k hi' hik hk a ha b hb
  have heq : i = k := by omega
  subst heq
  rw [ha] at hb
  cases hb
  exact (hf.self a).le

/-- Two sorted ranges with a pivot between them. -/
theorem SortedOn.join (hf : IsComparison f) {j : ℤ} (hleft : SortedOn f arr low (j - 1))
    (hright : SortedOn f arr j hi) (hbelow : Among arr low (j - 1) fun x => 0 ≤ f pivot x)
    (habove : Among arr j hi fun x => f pivot x ≤ 0) : SortedOn f arr low hi := by
  intro i k hi' hik hk a ha b hb
  by_cases hkj : k < j
  · exact hleft i k hi' hik (by omega) a ha b hb
  · by_cases hij : i < j
    · exact hf.trans a pivot b ((hf.swap a pivot).mpr (hbelow i ⟨hi', by omega⟩ a ha))
        (habove k ⟨by omega, hk⟩ b hb)
    · exact hright i k (by omega) hik hk a ha b hb

theorem SortedOn.congr {arr' : Cells α} (h : SortedOn f arr low hi)
    (heq : ∀ k, low ≤ k → k ≤ hi → arr' k = arr k) : SortedOn f arr' low hi := by
  intro i k hi' hik hk a ha b hb
  rw [heq i hi' (by omega)] at ha
  rw [heq k (by omega) hk] at hb
  exact h i k hi' hik hk a ha b hb

/-- A part that is sorted if it has two cells or more. -/
theorem sortPart_spec (hf : IsComparison f) {m : ℕ} (hm : low < hi → (hi - low).toNat < m)
    (hsort : low < hi → ∃ arr', (∀ n, (hi - low).toNat < n →
      lcsQuickSortExt f n arr low hi = some arr') ∧
      PermutedOn (within low hi) arr arr' ∧ SortedOn f arr' low hi) :
    ∃ arr', (∀ n, m ≤ n →
        (if low < hi then lcsQuickSortExt f n arr low hi else some arr) = some arr') ∧
      PermutedOn (within low hi) arr arr' ∧ SortedOn f arr' low hi := by
  by_cases h : low < hi
  · obtain ⟨arr', hrun, hrest⟩ := hsort h
    exact ⟨arr', fun n hn => by rw [if_pos h, hrun n ((hm h).trans_le hn)], hrest⟩
  · exact ⟨arr, fun n hn => by rw [if_neg h], .refl _ _, .single hf arr (not_lt.mp h)⟩

/-- From some fuel on the sort ends, in the same array whatever the fuel; the values of
the range are permuted and sorted, the other cells as they were. -/
theorem lcsQuickSortExt_spec (hf : IsComparison f) (hfilled : Filled arr low hi) (hlow : 0 ≤ low)
    (hle : low ≤ hi) (hmax : hi ≤ 2147483647) (hint : low < 2147483647) :
    ∃ arr', (∀ n, (hi - low).toNat < n → lcsQuickSortExt f n arr low hi = some arr') ∧
      PermutedOn (within low hi) arr arr' ∧ SortedOn f arr' low hi := by
  induction hm : (hi - low).toNat using Nat.strongRecOn generalizing arr low hi with
  | ind m ih =>
    rcases hle.eq_or_lt with rfl | hlt
    · refine ⟨arr, fun n hn => ?_, .refl _ _, .single hf arr le_rfl⟩
      obtain ⟨n, rfl⟩ : ∃ n', n = n' + 1 := ⟨n - 1, by omega⟩
      simp only [lcsQuickSortExt, sortWith,
        lcsPartitionExt_single hf hfilled hlow hint (Nat.succ_pos n), bind, Option.bind_some,
          if_neg (show ¬ low < low - 1 by omega), if_neg (lt_irrefl low)]
    · obtain ⟨arr₁, j, pivot, hpart, hlj, hjh, hperm₁, hbelow, habove⟩ :=
        lcsPartitionExt_spec hf hfilled hlow hlt hmax
      have hfilled₁ : Filled arr₁ low hi := hfilled.permuted hperm₁ le_rfl le_rfl
      -- the cells before `j`
      obtain ⟨arr₂, hleft, hperm₂, hsorted₂⟩ := @sortPart_spec _ f arr₁ low (j - 1) hf m
        (fun _ => by omega) fun h => ih (j - 1 - low).toNat (by omega)
          (fun k hk => hfilled₁ k ⟨hk.1, by have := hk.2; omega⟩) hlow h.le (by omega) hint rfl
      have hkeep₂ : ∀ k, j ≤ k → k ≤ hi → arr₂ k = arr₁ k := fun k hk _ =>
        hperm₂.outside fun h => by have := h.2; omega
      have hfilled₂ : Filled arr₂ low hi := hfilled₁.permuted hperm₂ le_rfl (by omega)
      -- the cells from `j` on
      obtain ⟨arr₃, hright, hperm₃, hsorted₃⟩ := @sortPart_spec _ f arr₂ j hi hf m
        (fun _ => by omega) fun h => ih (hi - j).toNat (by omega)
          (fun k hk => hfilled₂ k ⟨by have := hk.1; omega, hk.2⟩) (by omega) h.le hmax
            (by omega) rfl
      have hkeep₃ : ∀ k, low ≤ k → k ≤ j - 1 → arr₃ k = arr₂ k := fun k _ hk =>
        hperm₃.outside fun h => by have := h.1; omega
      have hbelow₃ : Among arr₃ low (j - 1) fun x => 0 ≤ f pivot x :=
        Among.congr (hperm₂.forall_mem (P := fun v => ∀ x ∈ v, 0 ≤ f pivot x) hbelow) hkeep₃
      have habove₃ : Among arr₃ j hi fun x => f pivot x ≤ 0 :=
        hperm₃.forall_mem (P := fun v => ∀ x ∈ v, f pivot x ≤ 0) (habove.congr hkeep₂)
      refine ⟨arr₃, fun n hn => ?_, ?_, (hsorted₂.congr hkeep₃).join hf hsorted₃ hbelow₃ habove₃⟩
      · obtain ⟨n, rfl⟩ : ∃ n', n = n' + 1 := ⟨n - 1, by omega⟩
        have hl := hleft n (by omega)
        have hr := hright n (by omega)
        simp only [lcsQuickSortExt] at hl hr
        simp only [lcsQuickSortExt, sortWith, hpart (n + 1) (by omega), bind, Option.bind_some]
        by_cases h : low < j - 1
        · rw [if_pos h] at hl ⊢
          rw [hl]
          exact hr
        · rw [if_neg h] at hl ⊢
          rw [Option.some.inj hl]
          exact hr
      · exact (hperm₁.trans (hperm₂.mono (within_mono le_rfl (by omega)))).trans
          (hperm₃.mono (within_mono (by omega) le_rfl))

/-- The array that holds a list. -/
def ofList (l : List α) : Cells α := fun k => if 0 ≤ k then l[k.toNat]? else none

theorem ofList_natCast (l : List α) (k : ℕ) : ofList l k = l[k]? := by simp [ofList]

/-- The indices of a list of length `n`. -/
theorem mem_indices {n : ℕ} {k : ℤ} :
    k ∈ (List.range n).map Nat.cast ↔ k ∈ within 0 ((n : ℤ) - 1) := by
  simp only [List.mem_map, List.mem_range, mem_within]
  constructor
  · rintro ⟨i, hi, rfl⟩
    omega
  · rintro ⟨h, h'⟩
    exact ⟨k.toNat, by omega, by omega⟩

theorem map_ofList (l : List α) :
    ((List.range l.length).map Nat.cast).map (ofList l) = l.map some := by
  apply List.ext_getElem?
  intro i
  by_cases hi : i < l.length
  · simp [hi, ofList_natCast]
  · simp [hi]

/-- Permuting the cells of a list leaves the array of a list. -/
theorem permuted_ofList {l : List α} {arr' : Cells α}
    (hperm : PermutedOn (within 0 ((l.length : ℤ) - 1)) (ofList l) arr') :
    ∃ l' : List α, l'.Perm l ∧ arr' = ofList l' := by
  have hnodup : ((List.range l.length).map (Nat.cast : ℕ → ℤ)).Nodup :=
    List.nodup_range.map fun _ _ h => by exact_mod_cast h
  have hcells : (((List.range l.length).map Nat.cast).map arr').Perm (l.map some) := by
    rw [← map_ofList]
    exact hperm.perm_map hnodup fun k => mem_indices
  -- the cells all hold a value: their list is one of values
  obtain ⟨l', hl'⟩ : ((List.range l.length).map Nat.cast).map arr' ∈
      Set.range (List.map (some : α → Option α)) := by
    rw [Set.range_list_map]
    intro v hv
    obtain ⟨x, -, hx⟩ := List.mem_map.mp (hcells.mem_iff.mp hv)
    exact ⟨x, hx⟩
  have hl'l : l'.Perm l := by
    rw [← hl'] at hcells
    exact (List.map_perm_map_iff (Option.some_injective α)).mp hcells
  refine ⟨l', hl'l, ?_⟩
  have hlength := hl'l.length_eq
  ext k : 1
  by_cases hk : k ∈ within 0 ((l.length : ℤ) - 1)
  · obtain ⟨h, h'⟩ := mem_within.mp hk
    obtain ⟨i, rfl⟩ := Int.eq_ofNat_of_zero_le h
    have hi := congrArg (fun xs => xs[i]?) hl'
    have hil : i < l.length := by omega
    have hil' : i < l'.length := by omega
    simpa [ofList, hil, hil'] using hi.symm
  · rw [hperm.outside hk]
    rw [mem_within] at hk
    unfold ofList
    by_cases h : 0 ≤ k
    · rw [if_pos h, if_pos h, List.getElem?_eq_none (by omega), List.getElem?_eq_none (by omega)]
    · rw [if_neg h, if_neg h]

/-- Sorting the array of a list sorts the list. -/
theorem lcsQuickSortExt_list (hf : IsComparison f) {l : List α} (hl : l ≠ [])
    (hint : l.length ≤ 2147483648) :
    ∃ l', (∀ n, l.length ≤ n → lcsQuickSortExt f n (ofList l) 0 (l.length - 1) = some (ofList l')) ∧
      l'.Perm l ∧ l'.Pairwise fun a b => f a b ≤ 0 := by
  have hpos : 0 < l.length := List.length_pos_iff.mpr hl
  have hfilled : Filled (ofList l) 0 (l.length - 1) := by
    intro k hk
    have hk' := mem_within.mp hk
    simp [ofList, hk'.1]
    omega
  obtain ⟨arr', hrun, hperm, hsorted⟩ := lcsQuickSortExt_spec hf hfilled le_rfl (by omega)
    (by omega) (by omega)
  obtain ⟨l', hl'l, rfl⟩ := permuted_ofList hperm
  refine ⟨l', fun n hn => hrun n (by omega), hl'l, ?_⟩
  rw [List.pairwise_iff_getElem]
  intro i j hi hj hij
  rw [hl'l.length_eq] at hi hj
  refine hsorted i j (by omega) (by omega) (by omega) _ ?_ _ ?_
  · simp [ofList_natCast]
  · simp [ofList_natCast]

/-- Memory in the cells of a range only. -/
def only (arr : Cells α) (low hi : ℤ) : Cells α := fun k =>
  if low ≤ k ∧ k ≤ hi then arr k else none

theorem only_filled (hfilled : Filled arr low hi) : Filled (only arr low hi) low hi := by
  intro k hk
  rw [only, if_pos (mem_within.mp hk)]
  exact hfilled k hk

/-- A sort of a range: it ends, on memory with the cells of the range alone as well, leaves
the range sorted and a permutation of what it was, and the cells outside of it as they were. -/
structure SortsRange (sort : ℕ → Cells α → ℤ → ℤ → Option (Cells α)) (f : α → α → ℤ)
    (arr : Cells α) (low hi : ℤ) : Prop where
  stays : ∃ arr', ∀ n, (hi - low).toNat < n → sort n (only arr low hi) low hi = some arr'
  sorts : ∃ arr', (∀ n, (hi - low).toNat < n → sort n arr low hi = some arr') ∧
    PermutedOn (within low hi) arr arr' ∧ SortedOn f arr' low hi

theorem sortsRange_iff (hf : IsComparison f) (hfilled : Filled arr low hi) (hlow : 0 ≤ low)
    (hle : low ≤ hi) (hmax : hi ≤ 2147483647) :
    SortsRange (lcsQuickSortExt f) f arr low hi ↔ low < 2147483647 := by
  constructor
  · rintro ⟨-, arr', hrun, -, -⟩
    by_contra hint
    obtain rfl : low = 2147483647 := by omega
    have hnone := hrun ((hi - 2147483647).toNat + 1) (Nat.lt_succ_self _)
    simp only [lcsQuickSortExt, sortWith, lcsPartitionExt_overflow, bind, Option.bind_none] at hnone
    cases hnone
  · intro hint
    obtain ⟨arr', hrun, -⟩ := lcsQuickSortExt_spec hf (only_filled hfilled) hlow hle hmax hint
    exact ⟨⟨arr', hrun⟩, lcsQuickSortExt_spec hf hfilled hlow hle hmax hint⟩

/-- Both sorts, on every array and every range inside it, `int`s for its indices: they sort
the range if and only if it is not the last cell of an array of 2^31 pointers. -/
theorem quick_sort_correct_iff (arr : Cells α) (low hi : ℤ) (hlow : 0 ≤ low) (hle : low ≤ hi)
    (hmax : hi ≤ 2147483647) (hfilled : Filled arr low hi) :
    (∀ f : α → α → ℤ, IsComparison f →
      (SortsRange (lcsQuickSortExt f) f arr low hi ↔ low < 2147483647)) ∧
    ∀ str : α → Bytes, (SortsRange (lcsQuickSort str)
      (fun a b => strcmp (str a) (str b)) arr low hi ↔ low < 2147483647) :=
  ⟨fun _ hf => sortsRange_iff hf hfilled hlow hle hmax,
    fun str => sortsRange_iff (strcmp_isComparison.comap str) hfilled hlow hle hmax⟩

theorem quick_sort_correct_iff_sample :
    let arr : Cells Bytes := fun k => if k = 1 then some [98] else if k = 2 then some [97] else none
    (0 : ℤ) ≤ 1 ∧ (1 : ℤ) ≤ 2 ∧ (2 : ℤ) ≤ 2147483647 ∧ Filled arr 1 2 ∧
    (∀ f : Bytes → Bytes → ℤ, IsComparison f →
      (SortsRange (lcsQuickSortExt f) f arr 1 2 ↔ (1 : ℤ) < 2147483647)) ∧
    ∀ str : Bytes → Bytes, (SortsRange (lcsQuickSort str)
      (fun a b => strcmp (str a) (str b)) arr 1 2 ↔ (1 : ℤ) < 2147483647) := by
  intro arr
  have hfilled : Filled arr 1 2 := by
    intro k hk
    have h := mem_within.mp hk
    have hcases : k = 1 ∨ k = 2 := by omega
    rcases hcases with rfl | rfl <;> rfl
  exact ⟨by decide, by decide, by decide, hfilled,
    quick_sort_correct_iff arr 1 2 (by decide) (by decide) (by decide) hfilled⟩

/-- 2^31 pointers to empty strings, and the range of the last one. -/
theorem quick_sort_overflows :
    let arr : Cells Bytes := fun k => if 0 ≤ k ∧ k ≤ 2147483647 then some [] else none
    Filled arr 2147483647 2147483647 ∧
    (∀ n, lcsQuickSort id n arr 2147483647 2147483647 = none) ∧
    ¬ SortsRange (lcsQuickSort id) (fun a b => strcmp (id a) (id b)) arr 2147483647 2147483647 := by
  intro arr
  have hnone : ∀ n, lcsQuickSort id n arr 2147483647 2147483647 = none := by
    intro n
    cases n with
    | zero => rfl
    | succ n =>
      simp only [lcsQuickSort, sortWith, lcsPartition, lcsPartitionExt_overflow, bind,
        Option.bind_none]
  refine ⟨fun k hk => ?_, hnone, ?_⟩
  · obtain ⟨hk, hk'⟩ := mem_within.mp hk
    have hcell : arr k = some [] := if_pos ⟨by omega, hk'⟩
    rw [hcell]
    rfl
  · rintro ⟨-, arr', hrun, -⟩
    have hsome := hrun 1 (by decide)
    rw [hnone] at hsome
    cases hsome

example : (lcsQuickSort id 3 (fun k => ([[98], [97], [98, 97]] : List Bytes)[k.toNat]?) 0 2).map
    (fun arr => [0, 1, 2].map arr) = some [some [97], some [98], some [98, 97]] := by decide

end MemoryLeak.Cluster
