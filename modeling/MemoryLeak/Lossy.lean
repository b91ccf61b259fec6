import MemoryLeak.Loops
import MemoryLeak.Sorting
import Mathlib.Data.Set.Card

/-!
# Runs that may lose values

A run whose steps may spoil what they move is compared with the run that stops where it would.
What is measured never grows, and where the two part it has become less: what has been lost does
not come back. An example is the number of cells whose values have some property.
-/
namespace MemoryLeak.Lossy
open MemoryLeak.Loops MemoryLeak.Sorting

section Runs

universe u
variable {α β σ : Type u} {μ : α → ℕ∞} {ν : β → ℕ∞} {m : ℕ∞}

/-- An outcome measures at most `m`; it is the one of `ideal`, or it measures less. -/
def Follows (μ : α → ℕ∞) (m : ℕ∞) (ideal actual : Option α) : Prop :=
  ∀ a, actual = some a → μ a ≤ m ∧ (ideal = some a ∨ μ a + 1 ≤ m)

theorem Follows.some {a : α} (h : μ a ≤ m) : Follows μ m (some a) (some a) := by
  intro b hb
  cases hb
  exact ⟨h, .inl rfl⟩

theorem Follows.none (x : Option α) : Follows μ m x none := fun _ h => nomatch h

theorem Follows.bind {x y : Option α} {f g : α → Option β} (h : Follows μ m x y)
    (hrest : ∀ a, y = Option.some a → Follows ν (μ a) (f a) (g a)) :
    Follows ν m (x >>= f) (y >>= g) := by
  intro b hb
  obtain ⟨a, ha, hb⟩ := Option.bind_eq_some_iff.mp hb
  obtain ⟨hle, hor⟩ := h a ha
  obtain ⟨hle', hor'⟩ := hrest a ha b hb
  refine ⟨hle'.trans hle, ?_⟩
  rcases hor with hx | hless
  · rcases hor' with hfa | hless'
    · rw [hx]
      exact .inl hfa
    · exact .inr (hless'.trans hle)
  · exact .inr ((add_le_add_left hle' 1).trans hless)

/-- A step that reads only, and the same in both. -/
theorem Follows.read {x : Option α} {f g : α → Option β}
    (h : ∀ a, x = Option.some a → Follows ν m (f a) (g a)) :
    Follows ν m (x >>= f) (x >>= g) := by
  intro b hb
  obtain ⟨a, ha, hb⟩ := Option.bind_eq_some_iff.mp hb
  rw [ha]
  exact h a ha b hb

theorem Follows.ite {c : Prop} [Decidable c] {x x' y y' : Option α} (h : c → Follows μ m x y)
    (h' : ¬ c → Follows μ m x' y') : Follows μ m (if c then x else x') (if c then y else y') := by
  by_cases hc : c
  · rw [if_pos hc, if_pos hc]
    exact h hc
  · rw [if_neg hc, if_neg hc]
    exact h' hc

def turnMeasure (μ : σ → ℕ∞) : Turn σ → ℕ∞
  | .again s => μ s
  | .leave s => μ s

/-- Loops whose turns follow each other. -/
theorem whileLoop_follows {μ : σ → ℕ∞} {turn turn' : σ → Option (Turn σ)}
    (h : ∀ s, Follows (turnMeasure μ) (μ s) (turn s) (turn' s)) (n : ℕ) (s : σ) :
    Follows μ (μ s) (whileLoop turn n s) (whileLoop turn' n s) := by
  induction n generalizing s with
  | zero => exact .none _
  | succ n ih =>
    intro a ha
    rw [whileLoop] at ha ⊢
    cases ht : turn' s with
    | none =>
      rw [ht] at ha
      cases ha
    | some t =>
      rw [ht] at ha
      obtain ⟨hle, hor⟩ := h s t ht
      cases t with
      | again s₁ =>
        obtain ⟨hle', hor'⟩ := ih s₁ a ha
        refine ⟨hle'.trans hle, ?_⟩
        rcases hor with hs | hless
        · rw [hs]
          exact hor'.imp_right fun hless => hless.trans hle
        · exact .inr ((add_le_add_left hle' 1).trans hless)
      | leave s₁ =>
        cases ha
        refine ⟨hle, hor.imp_left fun hs => ?_⟩
        rw [hs]

end Runs

section Cells

variable {ι β : Type*} {P : β → Prop}

/-- The number of cells whose values have the property. -/
noncomputable def count (P : β → Prop) (m : ι → β) : ℕ∞ := {i | P (m i)}.encard

theorem count_permuted {S : Set ι} {m m' : ι → β} (h : PermutedOn S m m') :
    count P m' = count P m := by
  obtain ⟨σ, -, rfl⟩ := h
  exact Set.encard_preimage_of_bijective σ.bijective {i | P (m i)}

/-- The value of `i` is replaced by that of `j`, and that of `j` by one without the property. -/
theorem count_moved [DecidableEq ι] (m : ι → β) (i j : ι) {v : β} (hv : ¬ P v) :
    count P (Function.update (Function.update m i (m j)) j v) ≤ count P m ∧
      (P (m i) → count P (Function.update (Function.update m i (m j)) j v) + 1 ≤ count P m) := by
  have hmaps : Set.MapsTo (Equiv.swap i j)
      {c | P (Function.update (Function.update m i (m j)) j v c)} ({c | P (m c)} \ {i}) := by
    intro c hc
    rw [Set.mem_ofPred_eq] at hc
    have hcj : c ≠ j := by
      rintro rfl
      rw [Function.update_self] at hc
      exact hv hc
    rw [Function.update_of_ne hcj] at hc
    by_cases hci : c = i
    · subst hci
      rw [Function.update_self] at hc
      rw [Equiv.swap_apply_left]
      exact ⟨hc, fun h => hcj h.symm⟩
    · rw [Function.update_of_ne hci] at hc
      rw [Equiv.swap_apply_of_ne_of_ne hci hcj]
      exact ⟨hc, hci⟩
  have hle := Set.encard_le_encard_of_injOn hmaps (Equiv.swap i j).injective.injOn
  refine ⟨hle.trans (Set.encard_le_encard Set.sdiff_subset), fun hi => ?_⟩
  have hone : ({c | P (m c)} \ {i}).encard + 1 = {c | P (m c)}.encard :=
    Set.encard_sdiff_singleton_add_one hi
  rw [count, count, ← hone]
  exact add_le_add_left hle 1

/-- Where finitely many cells have the property, less is not as many. -/
theorem count_not_less {m : ι → β} (hfin : {i | P (m i)}.Finite) : ¬ count P m + 1 ≤ count P m := by
  intro h
  have htop : count P m ≠ ⊤ := hfin.encard_lt_top.ne
  exact absurd ((ENat.add_one_le_iff htop).mp h) (lt_irrefl _)

end Cells

end MemoryLeak.Lossy
