import Mathlib.Algebra.BigOperators.Group.List.Basic
import Mathlib.Data.List.Induction
import Mathlib.Data.List.Nodup
import Mathlib.Data.Nat.ModEq

/-!
# Merging items of one key

Items are taken one after another into a list that has each key once: an item whose key is
there is added to the one that has it, another goes to the end. An amount that adds up under
such an addition, if only up to a modulus, ends as the sum over the items of its key.
-/
namespace MemoryLeak.MergeByKey

variable {α κ : Type*} [DecidableEq κ]

/-- An item is added to the first one of its key, or put behind all. -/
def mergeInto (key : α → κ) (add : α → α → α) : List α → α → List α
  | [], a => [a]
  | t :: rest, a =>
    if key a = key t then add t a :: rest else t :: mergeInto key add rest a

/-- The sum of an amount over the items of a key. -/
def totalOf (key : α → κ) (w : α → ℕ) (k : κ) (l : List α) : ℕ :=
  ((l.filter fun a => key a = k).map w).sum

section Totals

variable {key : α → κ} (w : α → ℕ) (k : κ)

theorem totalOf_append (l l' : List α) :
    totalOf key w k (l ++ l') = totalOf key w k l + totalOf key w k l' := by
  simp [totalOf]

theorem totalOf_singleton (a : α) :
    totalOf key w k [a] = if key a = k then w a else 0 := by
  by_cases h : key a = k
  · simp [totalOf, h]
  · simp [totalOf, h]

theorem totalOf_eq_zero {l : List α} (h : k ∉ l.map key) : totalOf key w k l = 0 := by
  have hnil : l.filter (fun a => key a = k) = [] := by
    simpa [List.filter_eq_nil_iff] using h
  rw [totalOf, hnil, List.map_nil, List.sum_nil]

/-- A sum is 0 when every item of the key has 0, and only then. -/
theorem totalOf_eq_zero_iff {l : List α} :
    totalOf key w k l = 0 ↔ ∀ a ∈ l, key a = k → w a = 0 := by
  rw [totalOf, List.sum_eq_zero_iff_forall_eq_nat, List.forall_mem_map]
  simp

end Totals

/-- `out` has the keys of `l`, each of them once. -/
structure IsMerge (key : α → κ) (l out : List α) : Prop where
  nodup : (out.map key).Nodup
  keys : ∀ k, k ∈ out.map key ↔ k ∈ l.map key

section Merge

variable {key : α → κ} {add : α → α → α}

theorem mergeInto_keys (hkey : ∀ t a, key (add t a) = key t) (out : List α) (a : α) :
    (mergeInto key add out a).map key =
      if key a ∈ out.map key then out.map key else out.map key ++ [key a] := by
  induction out with
  | nil => simp [mergeInto]
  | cons t out ih =>
    by_cases h : key a = key t
    · simp [mergeInto, h, hkey]
    · rw [mergeInto, if_neg h, List.map_cons, ih]
      by_cases hmem : key a ∈ out.map key
      · have hcons : key a ∈ (t :: out).map key := List.mem_cons_of_mem _ hmem
        rw [if_pos hmem, if_pos hcons, List.map_cons]
      · have hcons : key a ∉ (t :: out).map key := by
          rw [List.map_cons, List.mem_cons]
          exact not_or.mpr ⟨h, hmem⟩
        rw [if_neg hmem, if_neg hcons, List.map_cons, List.cons_append]

/-- Where an item of the new list comes from. -/
theorem mem_mergeInto {out : List α} (hnodup : (out.map key).Nodup) {a x : α}
    (hx : x ∈ mergeInto key add out a) :
    (x ∈ out ∧ key x ≠ key a) ∨ (∃ t ∈ out, key t = key a ∧ x = add t a) ∨
      (x = a ∧ key a ∉ out.map key) := by
  induction out with
  | nil => exact Or.inr (Or.inr ⟨List.mem_singleton.mp hx, List.not_mem_nil⟩)
  | cons t out ih =>
    obtain ⟨hfresh, hrest⟩ := List.nodup_cons.mp hnodup
    by_cases h : key a = key t
    · rw [mergeInto, if_pos h] at hx
      cases List.mem_cons.mp hx with
      | inl heq => exact Or.inr (Or.inl ⟨t, List.mem_cons_self, h.symm, heq⟩)
      | inr hmem =>
        refine Or.inl ⟨List.mem_cons_of_mem t hmem, fun heq => hfresh ?_⟩
        rw [← h, ← heq]
        exact List.mem_map_of_mem hmem
    · rw [mergeInto, if_neg h] at hx
      cases List.mem_cons.mp hx with
      | inl heq =>
        rw [heq]
        exact Or.inl ⟨List.mem_cons_self, Ne.symm h⟩
      | inr hmem =>
        rcases ih hrest hmem with ⟨hold, hne⟩ | ⟨u, hu, hadd⟩ | ⟨hself, hnew⟩
        · exact Or.inl ⟨List.mem_cons_of_mem t hold, hne⟩
        · exact Or.inr (Or.inl ⟨u, List.mem_cons_of_mem t hu, hadd⟩)
        · refine Or.inr (Or.inr ⟨hself, ?_⟩)
          rw [List.map_cons, List.mem_cons]
          exact not_or.mpr ⟨h, hnew⟩

theorem IsMerge.step (hkey : ∀ t a, key (add t a) = key t) {l out : List α}
    (h : IsMerge key l out) (a : α) : IsMerge key (l ++ [a]) (mergeInto key add out a) where
  nodup := by
    rw [mergeInto_keys hkey]
    split_ifs with hmem
    · exact h.nodup
    · rw [List.nodup_append]
      refine ⟨h.nodup, List.nodup_singleton _, ?_⟩
      intro x hx y hy hxy
      rw [List.mem_singleton] at hy
      exact hmem (hy ▸ hxy ▸ hx)
  keys k := by
    rw [mergeInto_keys hkey, List.map_append, List.mem_append, ← h.keys k]
    split_ifs with hmem
    · refine ⟨Or.inl, fun hk => hk.elim id fun hk => ?_⟩
      rw [List.map_singleton, List.mem_singleton] at hk
      rw [hk]
      exact hmem
    · rw [List.mem_append, List.map_singleton]

theorem foldl_isMerge (hkey : ∀ t a, key (add t a) = key t) (l : List α) :
    IsMerge key l (l.foldl (mergeInto key add) []) := by
  induction l using List.reverseRecOn with
  | nil => exact ⟨List.nodup_nil, fun k => Iff.rfl⟩
  | append_singleton l a ih =>
    rw [List.foldl_append]
    exact ih.step hkey a

/-- An amount that adds up modulo `m`. -/
theorem foldl_total (hkey : ∀ t a, key (add t a) = key t) {m : ℕ} {w : α → ℕ}
    (hw : ∀ t a, w (add t a) ≡ w t + w a [MOD m]) (l : List α) :
    ∀ e ∈ l.foldl (mergeInto key add) [], w e ≡ totalOf key w (key e) l [MOD m] := by
  induction l using List.reverseRecOn with
  | nil => exact fun e he => absurd he List.not_mem_nil
  | append_singleton l a ih =>
    have hmerge := foldl_isMerge hkey l
    rw [List.foldl_append]
    intro e he
    rw [totalOf_append, totalOf_singleton]
    rcases mem_mergeInto hmerge.nodup he with ⟨hold, hne⟩ | ⟨t, ht, hta, rfl⟩ | ⟨rfl, hnew⟩
    · rw [if_neg (Ne.symm hne), Nat.add_zero]
      exact ih e hold
    · rw [hkey, if_pos hta.symm]
      exact (hw t a).trans ((ih t ht).add_right _)
    · rw [if_pos rfl, totalOf_eq_zero w _ (fun hmem => hnew ((hmerge.keys _).mpr hmem)),
        Nat.zero_add]

end Merge

end MemoryLeak.MergeByKey
