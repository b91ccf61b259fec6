import MemoryLeak.Standalone.Partition

/-!
# The stand-alone quick sort

The recursion sorts every range of `int` values, as long as `j + 1` is an `int`: `j` may be the
last index of the range, and a range may end at the largest `int`.
-/
namespace MemoryLeak.Standalone
open MemoryLeak.Sorting MemoryLeak.Cluster

variable {save : Int64 → Option Int64} {arr arr' r : Cells Int64} {low hi j : ℤ} {k n : ℕ}

theorem keepsValues_eq : KeepsValues Eq := ⟨fun h ha => h ▸ ha, fun _ => rfl⟩

/-- More cells have values. -/
theorem keepsValues_le : KeepsValues fun a b => ∀ v, a = some v → b = some v :=
  ⟨fun h ha => h _ ha, fun _ _ h => h⟩

theorem savesAs_refl (save : Int64 → Option Int64) : SavesAs save save := fun _ _ h => h

theorem partitionBy_mono {k' : ℕ} (hk : k ≤ k') (h : partitionBy save k arr low hi = some (r, j)) :
    partitionBy save k' arr low hi = some (r, j) := by
  obtain ⟨r', hr', hcells⟩ := partitionBy_keeps keepsValues_eq (savesAs_refl save) hk
    (fun _ => rfl) h
  rw [hr', ← funext hcells]

theorem quicksortBy_mono {save' : Int64 → Option Int64} (hsave : SavesAs save save') {k' n' : ℕ}
    (hk : k ≤ k') (hn : n ≤ n') (h : quicksortBy save k n arr low hi = some r) :
    quicksortBy save' k' n' arr low hi = some r := by
  obtain ⟨r', hr', hcells⟩ := quicksortBy_keeps keepsValues_eq hsave hk hn (fun _ => rfl) h
  rw [hr', ← funext hcells]

/-! ### Ranges -/

/-- The cells of a range hold values, `tmp` holds these as they are, and the indexes are `int`s. -/
structure Sortable (save : Int64 → Option Int64) (arr : Cells Int64) (low hi : ℤ) : Prop where
  filled : Filled arr low hi
  saved : Saved save arr low hi
  low_nonneg : 0 ≤ low
  hi_le : hi ≤ 2147483647

namespace Sortable

theorem permuted (h : Sortable save arr low hi) (hperm : PermutedOn (within low hi) arr r) :
    Sortable save r low hi where
  filled := h.filled.permuted hperm le_rfl le_rfl
  saved := hperm.forall_mem (P := fun v => ∀ x ∈ v, save x = some x) h.saved
  low_nonneg := h.low_nonneg
  hi_le := h.hi_le

theorem part {l m : ℤ} (h : Sortable save arr low hi) (hl : low ≤ l) (hm : m ≤ hi) :
    Sortable save arr l m where
  filled c hc := h.filled c (within_mono hl hm hc)
  saved c hc := h.saved c (within_mono hl hm hc)
  low_nonneg := h.low_nonneg.trans hl
  hi_le := hm.trans h.hi_le

theorem congr (h : Sortable save arr low hi) (heq : ∀ c ∈ within low hi, arr' c = arr c) :
    Sortable save arr' low hi where
  filled c hc := by
    rw [heq c hc]
    exact h.filled c hc
  saved c hc := by
    rw [heq c hc]
    exact h.saved c hc
  low_nonneg := h.low_nonneg
  hi_le := h.hi_le

theorem partition (h : Sortable save arr low hi) (hlt : low < hi) :
    ∃ r j, PartitionTo save arr low hi r j ∧ Placed r low hi j ∧
      PermutedOn (within low hi) arr r :=
  partition_spec h.filled h.saved h.low_nonneg hlt h.hi_le

theorem partition_eq (h : Sortable save arr low hi) (hlt : low < hi)
    (hpart : PartitionTo save arr low hi r j) :
    Placed r low hi j ∧ PermutedOn (within low hi) arr r := by
  obtain ⟨r', j', hpart', hplaced, hperm⟩ := h.partition hlt
  obtain ⟨rfl, rfl⟩ := hpart.unique hpart'
  exact ⟨hplaced, hperm⟩

/-- A run of a partition, whatever its turns. -/
theorem partitionTo (h : Sortable save arr low hi) (hlt : low < hi)
    (hrun : partitionBy save k arr low hi = some (r, j)) : PartitionTo save arr low hi r j := by
  obtain ⟨r', j', hpart, -⟩ := h.partition hlt
  have hmore := partitionBy_mono (Nat.le_add_right k ((hi - low).toNat + 1)) hrun
  rw [hpart _ (by omega)] at hmore
  cases hmore
  exact hpart

/-- A partition depends on the cells of its range only. -/
theorem partition_congr (h : Sortable save arr low hi) (hlt : low < hi)
    (heq : ∀ c ∈ within low hi, arr' c = arr c) (hpart : PartitionTo save arr low hi r j) :
    ∃ r', PartitionTo save arr' low hi r' j ∧ ∀ c ∈ within low hi, r' c = r c := by
  have honly : ∀ c ∈ within low hi, only arr low hi c = arr c := fun c hc => if_pos hc
  have hless : ∀ m : Cells Int64, (∀ c ∈ within low hi, m c = arr c) →
      ∀ c v, only arr low hi c = some v → m c = some v := by
    intro m hm c v hv
    unfold only at hv
    split_ifs at hv with hc
    rw [hm c hc, hv]
  -- the run on the range alone, which both extend
  obtain ⟨r₀, j₀, hpart₀, -, hperm₀⟩ := (h.congr honly).partition hlt
  have hfilled₀ := ((h.congr honly).permuted hperm₀).filled
  obtain ⟨r', j', hpart', -⟩ := (h.congr heq).partition hlt
  have hrun₀ := hpart₀ _ (Nat.lt_succ_self _)
  obtain ⟨r₁, hrun, hcells⟩ := partitionBy_keeps keepsValues_le (savesAs_refl save) le_rfl
    (hless arr fun _ _ => rfl) hrun₀
  obtain ⟨r₂, hrun', hcells'⟩ := partitionBy_keeps keepsValues_le (savesAs_refl save) le_rfl
    (hless arr' heq) hrun₀
  rw [hpart _ (Nat.lt_succ_self _)] at hrun
  rw [hpart' _ (Nat.lt_succ_self _)] at hrun'
  cases hrun
  cases hrun'
  refine ⟨r', hpart', fun c hc => ?_⟩
  obtain ⟨v, hv⟩ := Option.isSome_iff_exists.mp (hfilled₀ c hc)
  rw [hcells c v hv, hcells' c v hv]

end Sortable

/-! ### The recursion -/

/-- No partition of a range that ends at `hi` returns the largest `int`, from right part to right
part. -/
inductive RightEnds (save : Int64 → Option Int64) : Cells Int64 → ℤ → ℤ → Prop where
  | done {arr : Cells Int64} {low hi : ℤ} (hle : hi ≤ low) : RightEnds save arr low hi
  | next {arr r : Cells Int64} {low hi j : ℤ} (hlt : low < hi)
      (hpart : PartitionTo save arr low hi r j) (hj : j < 2147483647)
      (hright : RightEnds save r (j + 1) hi) : RightEnds save arr low hi

theorem RightEnds.congr (h : RightEnds save arr low hi) (harr : Sortable save arr low hi)
    (heq : ∀ c ∈ within low hi, arr' c = arr c) : RightEnds save arr' low hi := by
  induction h generalizing arr' with
  | done hle => exact .done hle
  | @next arr r low hi j hlt hpart hj _ ih =>
    obtain ⟨⟨hlj, hjh, -⟩, hperm⟩ := harr.partition_eq hlt hpart
    obtain ⟨r', hpart', hcells⟩ := harr.partition_congr hlt heq hpart
    refine .next hlt hpart' hj (ih ((harr.permuted hperm).part (by omega) le_rfl) fun c hc => ?_)
    exact hcells c (within_mono (by omega) le_rfl hc)

/-- Only a range that ends at the largest `int` is in danger. -/
theorem rightEnds_of_lt (harr : Sortable save arr low hi) (hmax : hi < 2147483647) :
    RightEnds save arr low hi := by
  induction hm : (hi - low).toNat using Nat.strongRecOn generalizing arr low with
  | ind m ih =>
    by_cases hlt : low < hi
    · obtain ⟨r, j, hpart, ⟨hlj, hjh, -⟩, hperm⟩ := harr.partition hlt
      exact .next hlt hpart (by omega)
        (ih _ (by omega) ((harr.permuted hperm).part (by omega) le_rfl) rfl)
    · exact .done (not_lt.mp hlt)

/-- Two sorted parts around a value that is in its place. -/
theorem Placed.sorted (h : Placed arr low hi j) (hleft : SortedOn longCmp arr low (j - 1))
    (hright : SortedOn longCmp arr (j + 1) hi) : SortedOn longCmp arr low hi := by
  obtain ⟨-, -, p, hp, hbelow, habove⟩ := h
  have hself : longCmp p p = 0 := longCmp_comparison.self p
  have hone : Among arr j (j + 1 - 1) fun x => 0 ≤ longCmp p x :=
    .cons hp hself.ge (.empty (by omega) _)
  have hfrom : SortedOn longCmp arr j hi := by
    apply SortedOn.join longCmp_comparison _ hright hone habove
    exact .single longCmp_comparison arr (by omega)
  exact hleft.join longCmp_comparison hfrom hbelow (.cons hp hself.le habove)

/-- Sorting its two parts leaves the value between them in its place. -/
theorem Placed.permuted {l m : ℤ} (h : Placed arr low hi j) (hperm : PermutedOn (within l m) arr r)
    (hpart : l = low ∧ m = j - 1 ∨ l = j + 1 ∧ m = hi) : Placed r low hi j := by
  obtain ⟨hlj, hjh, p, hp, hbelow, habove⟩ := h
  have hkeep : ∀ c, c < l ∨ m < c → r c = arr c := fun c hc =>
    hperm.outside fun h => by have := h.1; have := h.2; omega
  refine ⟨hlj, hjh, p, ?_, ?_, ?_⟩
  · rw [hkeep j (by omega)]
    exact hp
  · rcases hpart with ⟨rfl, rfl⟩ | ⟨rfl, rfl⟩
    · exact hperm.forall_mem (P := fun v => ∀ x ∈ v, 0 ≤ longCmp p x) hbelow
    · exact hbelow.congr fun c _ hc => hkeep c (by omega)
  · rcases hpart with ⟨rfl, rfl⟩ | ⟨rfl, rfl⟩
    · exact habove.congr fun c hc _ => hkeep c (by omega)
    · exact hperm.forall_mem (P := fun v => ∀ x ∈ v, longCmp p x ≤ 0) habove

theorem quicksortBy_spec (harr : Sortable save arr low hi) (hends : RightEnds save arr low hi) :
    ∃ r, (∀ k n, (hi - low).toNat < k → (hi - low + 1).toNat < n →
        quicksortBy save k n arr low hi = some r) ∧
      PermutedOn (within low hi) arr r ∧ SortedOn longCmp r low hi := by
  induction hm : (hi - low + 1).toNat using Nat.strongRecOn generalizing arr low hi with
  | ind m ih =>
    cases hends with
    | done hle =>
      refine ⟨arr, fun k n _ hn => ?_, .refl _ _, .single longCmp_comparison arr hle⟩
      obtain ⟨n, rfl⟩ : ∃ m, n = m + 1 := ⟨n - 1, by omega⟩
      rw [quicksortBy, if_neg (by omega)]
    | @next _ r₁ _ _ j hlt hpart hj hright =>
      obtain ⟨hplaced, hperm₁⟩ := harr.partition_eq hlt hpart
      have hlj := hplaced.1
      have hjh := hplaced.2.1
      have harr₁ := harr.permuted hperm₁
      -- the cells before `j`
      have hleft : Sortable save r₁ low (j - 1) := harr₁.part le_rfl (by omega)
      obtain ⟨r₂, hrun₂, hperm₂, hsorted₂⟩ := ih _ (by omega) hleft
        (rightEnds_of_lt hleft (by have := harr.hi_le; omega)) rfl
      have hkeep₂ : ∀ c ∈ within (j + 1) hi, r₂ c = r₁ c := fun c hc =>
        hperm₂.outside fun h => by have := h.2; have := hc.1; omega
      -- the cells behind it
      have hright₁ : Sortable save r₁ (j + 1) hi := harr₁.part (by omega) le_rfl
      obtain ⟨r₃, hrun₃, hperm₃, hsorted₃⟩ := ih _ (by omega) (hright₁.congr hkeep₂)
        (hright.congr hright₁ hkeep₂) rfl
      have hplaced₃ := (hplaced.permuted hperm₂ (.inl ⟨rfl, rfl⟩)).permuted hperm₃
        (.inr ⟨rfl, rfl⟩)
      have hkeep₃ : ∀ c, low ≤ c → c ≤ j - 1 → r₃ c = r₂ c := fun c _ hc =>
        hperm₃.outside fun h => by have := h.1; omega
      refine ⟨r₃, fun k n hk hn => ?_, ?_, hplaced₃.sorted (hsorted₂.congr hkeep₃) hsorted₃⟩
      · obtain ⟨n, rfl⟩ : ∃ m, n = m + 1 := ⟨n - 1, by omega⟩
        have hnext : intOf (j + 1) = some (j + 1) :=
          intOf_eq (by have := harr.low_nonneg; omega) (by omega)
        rw [quicksortBy, if_pos hlt]
        simp only [hpart k hk, hrun₂ k n (by omega) (by omega), hnext,
          hrun₃ k n (by omega) (by omega), bind, Option.bind_some]
      · exact (hperm₁.trans (hperm₂.mono (within_mono le_rfl (by omega)))).trans
          (hperm₃.mono (within_mono (by omega) le_rfl))

/-- A run that ends has met no partition that returns the largest `int`. -/
theorem rightEnds_of_run (harr : Sortable save arr low hi)
    (hrun : quicksortBy save k n arr low hi = some r) : RightEnds save arr low hi := by
  induction n generalizing arr r low hi with
  | zero => cases hrun
  | succ n ih =>
    rw [quicksortBy] at hrun
    split_ifs at hrun with hlt
    · obtain ⟨⟨r₁, j⟩, hpart, hrun⟩ := Option.bind_eq_some_iff.mp hrun
      obtain ⟨r₂, hleft, hrun⟩ := Option.bind_eq_some_iff.mp hrun
      obtain ⟨next, hnext, hright⟩ := Option.bind_eq_some_iff.mp hrun
      have hpart := harr.partitionTo hlt hpart
      obtain ⟨⟨hlj, hjh, -⟩, hperm₁⟩ := harr.partition_eq hlt hpart
      have harr₁ := harr.permuted hperm₁
      unfold intOf at hnext
      split_ifs at hnext with hint
      cases hnext
      have hleft₁ : Sortable save r₁ low (j - 1) := harr₁.part le_rfl (by omega)
      obtain ⟨r₂', hrun₂, hperm₂, -⟩ := quicksortBy_spec hleft₁ (ih hleft₁ hleft)
      have hmore := quicksortBy_mono (savesAs_refl save)
        (Nat.le_add_right k ((j - 1 - low).toNat + 1))
        (Nat.le_add_right n ((j - 1 - low + 1).toNat + 1)) hleft
      rw [hrun₂ _ _ (by omega) (by omega)] at hmore
      cases hmore
      have hkeep : ∀ c ∈ within (j + 1) hi, r₂ c = r₁ c := fun c hc =>
        hperm₂.outside fun h => by have := h.2; have := hc.1; omega
      have hright₂ : Sortable save r₂ (j + 1) hi :=
        (harr₁.part (by omega) le_rfl).congr hkeep
      exact .next hlt hpart (by omega)
        ((ih hright₂ hright).congr hright₂ fun c hc => (hkeep c hc).symm)
    · exact .done (not_lt.mp hlt)

/-! ### Arrays of `int` values -/

theorem sortable_of_fits (hlow : 0 ≤ low) (hmax : hi ≤ 2147483647) (hfilled : Filled arr low hi)
    (hfits : Among arr low hi FitsInt) : Sortable toTmp arr low hi :=
  ⟨hfilled, fun c hc v hv => (toTmp_eq_iff v).mpr (hfits c hc v hv), hlow, hmax⟩

theorem mem_ofList {l : List Int64} {c : ℤ} (hc : c ∈ within 0 ((l.length : ℤ) - 1)) :
    ∃ v ∈ l, ofList l c = some v := by
  rw [mem_within] at hc
  obtain ⟨i, rfl⟩ := Int.eq_ofNat_of_zero_le hc.1
  have hi : i < l.length := by omega
  exact ⟨l[i], List.getElem_mem hi, by rw [ofList_natCast, List.getElem?_eq_getElem hi]⟩

/-- The whole array of a list. -/
theorem sortable_ofList {l : List Int64} (hsave : ∀ v ∈ l, save v = some v)
    (hlen : l.length ≤ 2147483648) : Sortable save (ofList l) 0 ((l.length : ℤ) - 1) where
  filled c hc := by
    obtain ⟨v, -, hv⟩ := mem_ofList hc
    rw [hv]
    rfl
  saved c hc w hw := by
    obtain ⟨v, hmem, hv⟩ := mem_ofList hc
    rw [hv] at hw
    cases hw
    exact hsave _ hmem
  low_nonneg := le_rfl
  hi_le := by omega

/-- `partition` returns an index whose value stands between those before it and those behind it,
and has permuted its range only. -/
def PlacesPivot (arr : Cells Int64) (low hi : ℤ) : Prop :=
  ∃ r j, (∀ k, (hi - low).toNat < k → partition k arr low hi = some (r, j)) ∧
    Placed r low hi j ∧ PermutedOn (within low hi) arr r

/-- `quicksort` ends and leaves the range sorted, and a permutation of what it was. -/
def Sorts (arr : Cells Int64) (low hi : ℤ) : Prop :=
  ∃ r, (∃ B, ∀ k n, B < k → B < n → quicksort k n arr low hi = some r) ∧
    PermutedOn (within low hi) arr r ∧ SortedOn longCmp r low hi

theorem sorts_iff (harr : Sortable toTmp arr low hi) :
    Sorts arr low hi ↔ RightEnds toTmp arr low hi := by
  constructor
  · rintro ⟨r, ⟨B, hrun⟩, -⟩
    exact rightEnds_of_run harr (hrun _ _ (Nat.lt_succ_self B) (Nat.lt_succ_self B))
  · intro hends
    obtain ⟨r, hrun, hr⟩ := quicksortBy_spec harr hends
    refine ⟨r, ⟨(hi - low + 1).toNat, fun k n hk hn => ?_⟩, hr⟩
    exact hrun k n (by omega) hn

/-- Every partition of `int` values puts its pivot in place; the recursion sorts exactly if no
partition of a range at its end returns the largest `int`, which only a range that ends at that
index can do. -/
theorem quicksort_correct_iff {arr : Cells Int64} {low hi : ℤ} (hlow : 0 ≤ low) (hlt : low < hi)
    (hmax : hi ≤ 2147483647) (hfilled : Filled arr low hi) (hfits : Among arr low hi FitsInt) :
    (PlacesPivot arr low hi ∧ Sorts arr low hi ↔ RightEnds toTmp arr low hi) ∧
      (hi < 2147483647 → RightEnds toTmp arr low hi) := by
  have harr := sortable_of_fits hlow hmax hfilled hfits
  have hplaces : PlacesPivot arr low hi := harr.partition hlt
  exact ⟨(and_iff_right hplaces).trans (sorts_iff harr), rightEnds_of_lt harr⟩

/-- Three cells with a value twice. -/
theorem quicksort_correct_sample :
    let arr : Cells Int64 := ofList [3, 1, 3]
    PlacesPivot arr 0 2 ∧ Sorts arr 0 2 := by
  intro arr
  have hsave : ∀ v ∈ ([3, 1, 3] : List Int64), toTmp v = some v := by
    intro v hv
    simp only [List.mem_cons, List.not_mem_nil, or_false] at hv
    rcases hv with rfl | rfl | rfl <;> rfl
  have harr : Sortable toTmp arr 0 2 := sortable_ofList hsave (by decide)
  have hfits : Among arr 0 2 FitsInt := fun c hc v hv =>
    (toTmp_eq_iff v).mp (harr.saved c hc v hv)
  have hiff := quicksort_correct_iff le_rfl (by decide) (by decide) harr.filled hfits
  exact hiff.1.mpr (hiff.2 (by decide))

/-- The last two cells of an array of 2^31 zeros: the partition returns the last index, and the
call for what is behind it needs the sum of that index and one. -/
theorem quicksort_overflows :
    ¬ (PlacesPivot (fun c => if 0 ≤ c ∧ c ≤ 2147483647 then some 0 else none)
        2147483646 2147483647 ∧
      Sorts (fun c => if 0 ≤ c ∧ c ≤ 2147483647 then some 0 else none)
        2147483646 2147483647) := by
  rintro ⟨-, r, ⟨B, hrun⟩, -⟩
  have harr : Sortable toTmp (fun c => if 0 ≤ c ∧ c ≤ 2147483647 then some 0 else none)
      2147483646 2147483647 := by
    apply sortable_of_fits (by decide) (by decide)
    · intro c hc
      rw [mem_within] at hc
      dsimp only
      rw [if_pos (by omega)]
      rfl
    · intro c hc v hv
      rw [mem_within] at hc
      dsimp only at hv
      rw [if_pos (by omega)] at hv
      cases hv
      decide
  have hrun := hrun _ _ (Nat.lt_succ_self B) (Nat.lt_succ_self B)
  cases rightEnds_of_run harr hrun with
  | done hle => exact absurd hle (by decide)
  | next hlt hpart hj hright =>
    have hlast : partitionBy toTmp 2 (fun c => if 0 ≤ c ∧ c ≤ 2147483647 then some 0 else none)
        2147483646 2147483647 =
      some ((fun c => if 0 ≤ c ∧ c ≤ 2147483647 then some 0 else none), 2147483647) := rfl
    rw [hpart 2 (by decide)] at hlast
    cases hlast
    exact absurd hj (by decide)

end MemoryLeak.Standalone
