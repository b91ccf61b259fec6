import Mathlib.Logic.Equiv.Basic
import Mathlib.Data.List.Perm.Basic
import Mathlib.Data.List.Nodup

/-!
# Permuted cells and comparison functions

Memory that holds the same values in other cells of a set, and comparison functions
in the manner of `strcmp`, whose sign is a total preorder.
-/
namespace MemoryLeak.Sorting

section Cells

variable {ι β : Type*}

/-- The cells of `S` are permuted, the others unchanged. -/
def PermutedOn (S : Set ι) (m m' : ι → β) : Prop :=
  ∃ σ : Equiv.Perm ι, (∀ i ∉ S, σ i = i) ∧ m' = m ∘ σ

namespace PermutedOn

variable {S T : Set ι} {m m' m'' : ι → β}

theorem refl (S : Set ι) (m : ι → β) : PermutedOn S m m := ⟨Equiv.refl ι, fun _ _ => rfl, rfl⟩

theorem trans (h : PermutedOn S m m') (h' : PermutedOn S m' m'') : PermutedOn S m m'' := by
  obtain ⟨σ, hσ, rfl⟩ := h
  obtain ⟨τ, hτ, rfl⟩ := h'
  refine ⟨τ.trans σ, fun i hi => ?_, rfl⟩
  rw [Equiv.trans_apply, hτ i hi, hσ i hi]

theorem symm (h : PermutedOn S m m') : PermutedOn S m' m := by
  obtain ⟨σ, hσ, rfl⟩ := h
  refine ⟨σ.symm, fun i hi => ?_, ?_⟩
  · rw [Equiv.symm_apply_eq, hσ i hi]
  · funext i
    exact congrArg m (σ.apply_symm_apply i).symm

theorem mono (hST : S ⊆ T) (h : PermutedOn S m m') : PermutedOn T m m' := by
  obtain ⟨σ, hσ, hm⟩ := h
  exact ⟨σ, fun i hi => hσ i fun hS => hi (hST hS), hm⟩

theorem swap [DecidableEq ι] (m : ι → β) {i j : ι} (hi : i ∈ S) (hj : j ∈ S) :
    PermutedOn S m (m ∘ Equiv.swap i j) := by
  refine ⟨Equiv.swap i j, fun k hk => ?_, rfl⟩
  exact Equiv.swap_apply_of_ne_of_ne (fun h => hk (h ▸ hi)) (fun h => hk (h ▸ hj))

theorem outside (h : PermutedOn S m m') {i : ι} (hi : i ∉ S) : m' i = m i := by
  obtain ⟨σ, hσ, rfl⟩ := h
  exact congrArg m (hσ i hi)

theorem map_mem {σ : Equiv.Perm ι} (hσ : ∀ i ∉ S, σ i = i) {i : ι} (hi : i ∈ S) : σ i ∈ S := by
  by_contra h
  have hfix : σ i = i := σ.injective (hσ (σ i) h)
  exact h (hfix.symm ▸ hi)

/-- What holds of every value in the cells of `S` still does. -/
theorem forall_mem (h : PermutedOn S m m') {P : β → Prop} (hP : ∀ i ∈ S, P (m i)) :
    ∀ i ∈ S, P (m' i) := by
  obtain ⟨σ, hσ, rfl⟩ := h
  exact fun i hi => hP (σ i) (map_mem hσ hi)

/-- The values read in the order of the cells are permuted. -/
theorem perm_map (h : PermutedOn S m m') {l : List ι} (hl : l.Nodup) (hS : ∀ i, i ∈ l ↔ i ∈ S) :
    (l.map m').Perm (l.map m) := by
  obtain ⟨σ, hσ, rfl⟩ := h
  have hperm : (l.map σ).Perm l := by
    refine (List.perm_ext_iff_of_nodup (hl.map σ.injective) hl).mpr fun i => ?_
    have hinv : ∀ k ∉ S, σ.symm k = k := fun k hk => by rw [Equiv.symm_apply_eq, hσ k hk]
    constructor
    · intro hi
      obtain ⟨k, hk, rfl⟩ := List.mem_map.mp hi
      exact (hS _).mpr (map_mem hσ ((hS k).mp hk))
    · intro hi
      have hk : σ.symm i ∈ S := map_mem hinv ((hS i).mp hi)
      exact List.mem_map.mpr ⟨σ.symm i, (hS _).mpr hk, σ.apply_symm_apply i⟩
  rw [← List.map_map]
  exact hperm.map m

end PermutedOn

end Cells

section Comparison

variable {α γ : Type*}

/-- The sign of `f` is a total preorder. -/
structure IsComparison (f : α → α → ℤ) : Prop where
  swap : ∀ a b, f a b ≤ 0 ↔ 0 ≤ f b a
  trans : ∀ a b c, f a b ≤ 0 → f b c ≤ 0 → f a c ≤ 0

namespace IsComparison

variable {f g : α → α → ℤ}

theorem self (hf : IsComparison f) (a : α) : f a a = 0 := by
  have h := hf.swap a a
  omega

/-- Comparing by a part of the values. -/
theorem comap (hf : IsComparison f) (k : γ → α) : IsComparison fun a b => f (k a) (k b) :=
  ⟨fun a b => hf.swap (k a) (k b), fun a b c => hf.trans (k a) (k b) (k c)⟩

end IsComparison

/-- Comparing by `f` and, where it does not decide, by `g`. -/
def thenBy (f g : α → α → ℤ) (a b : α) : ℤ := if f a b ≠ 0 then f a b else g a b

/-- A value not above another in the lexicographic comparison. -/
theorem thenBy_le_iff {f g : α → α → ℤ} (a b : α) :
    thenBy f g a b ≤ 0 ↔ f a b < 0 ∨ f a b = 0 ∧ g a b ≤ 0 := by
  unfold thenBy
  split <;> omega

theorem IsComparison.thenBy {f g : α → α → ℤ} (hf : IsComparison f) (hg : IsComparison g) :
    IsComparison (thenBy f g) := by
  constructor
  · intro a b
    have h₁ := hf.swap a b
    have h₂ := hf.swap b a
    have h₃ := hg.swap a b
    simp only [Sorting.thenBy]
    split_ifs <;> omega
  · intro a b c hab hbc
    rw [thenBy_le_iff] at hab hbc ⊢
    have h₁ := hf.swap a b
    have h₂ := hf.swap b c
    have h₃ := hf.swap c b
    have h₄ := hf.swap b a
    have h₅ := hf.swap a c
    have h₆ := hf.swap c a
    have htrans := hf.trans a b c
    have hback := hf.trans c a b
    have hback' := hf.trans b c a
    have hrest := hg.trans a b c
    omega

end Comparison

end MemoryLeak.Sorting
