import Mathlib.Algebra.BigOperators.Group.List.Basic
import Mathlib.Order.Lattice

/-!
# Sums by key

A list of keys with amounts, and the list that has each key once, in increasing order,
with the sum of its amounts. Such a list is determined by the first one up to order,
can be computed by folding runs of equal keys of a sorted list, and can be computed in stages.
-/
namespace MemoryLeak.GroupBy

variable {κ M : Type*} [LinearOrder κ] [AddCommMonoid M]

/-- The sum of the amounts of a key. -/
def totalOf (l : List (κ × M)) (k : κ) : M := ((l.filter fun a => a.1 = k).map Prod.snd).sum

@[simp] theorem totalOf_nil (k : κ) : totalOf ([] : List (κ × M)) k = 0 := rfl

theorem totalOf_cons (a : κ × M) (l : List (κ × M)) (k : κ) :
    totalOf (a :: l) k = (if a.1 = k then a.2 else 0) + totalOf l k := by
  by_cases h : a.1 = k
  · simp [totalOf, h]
  · simp [totalOf, h]

theorem totalOf_append (l l' : List (κ × M)) (k : κ) :
    totalOf (l ++ l') k = totalOf l k + totalOf l' k := by
  simp [totalOf]

theorem totalOf_perm {l l' : List (κ × M)} (h : l.Perm l') (k : κ) : totalOf l k = totalOf l' k :=
  ((h.filter _).map _).sum_eq

theorem totalOf_eq_zero {l : List (κ × M)} {k : κ} (h : ∀ a ∈ l, a.1 ≠ k) : totalOf l k = 0 := by
  have hnil : l.filter (fun a => a.1 = k) = [] := by
    simpa [List.filter_eq_nil_iff] using fun a b hab => h (a, b) hab
  simp [totalOf, hnil]

/-- `out` has each key of `l` once, in increasing order, with its sum. -/
structure IsGroupSum (l out : List (κ × M)) : Prop where
  increasing : out.Pairwise fun a b => a.1 < b.1
  keys : ∀ k, (∃ a ∈ out, a.1 = k) ↔ ∃ a ∈ l, a.1 = k
  total : ∀ a ∈ out, a.2 = totalOf l a.1

namespace IsGroupSum

variable {l l' out out' : List (κ × M)}

theorem mem_iff (h : IsGroupSum l out) (a : κ × M) :
    a ∈ out ↔ (∃ b ∈ l, b.1 = a.1) ∧ a.2 = totalOf l a.1 := by
  constructor
  · exact fun ha => ⟨(h.keys a.1).mp ⟨a, ha, rfl⟩, h.total a ha⟩
  · rintro ⟨hkey, htotal⟩
    obtain ⟨b, hb, hba⟩ := (h.keys a.1).mpr hkey
    have heq : b = a := Prod.ext hba (by rw [h.total b hb, hba, htotal])
    exact heq ▸ hb

theorem eq_nil_iff (h : IsGroupSum l out) : out = [] ↔ l = [] := by
  rw [List.eq_nil_iff_forall_not_mem, List.eq_nil_iff_forall_not_mem]
  constructor
  · intro hout a ha
    obtain ⟨b, hb, _⟩ := (h.keys a.1).mpr ⟨a, ha, rfl⟩
    exact hout b hb
  · intro hl a ha
    obtain ⟨b, hb, _⟩ := (h.keys a.1).mp ⟨a, ha, rfl⟩
    exact hl b hb

/-- There are at most as many sums as amounts. -/
theorem length_le (h : IsGroupSum l out) : out.length ≤ l.length := by
  have hnodup : (out.map Prod.fst).Nodup :=
    List.pairwise_map.mpr (h.increasing.imp fun hab => hab.ne)
  have hsub : out.map Prod.fst ⊆ l.map Prod.fst := by
    intro k hk
    obtain ⟨a, ha, rfl⟩ := List.mem_map.mp hk
    obtain ⟨b, hb, hba⟩ := (h.keys a.1).mp ⟨a, ha, rfl⟩
    exact List.mem_map.mpr ⟨b, hb, hba⟩
  simpa using (List.subperm_of_subset hnodup hsub).length_le

/-- Lists with the same keys and sums have the same result. -/
theorem unique (h : IsGroupSum l out) (h' : IsGroupSum l' out')
    (hkeys : ∀ k, (∃ a ∈ l, a.1 = k) ↔ ∃ a ∈ l', a.1 = k)
    (htotal : ∀ k, totalOf l k = totalOf l' k) :
    out = out' := by
  have hmem : ∀ a, a ∈ out ↔ a ∈ out' := by
    intro a
    rw [h.mem_iff, h'.mem_iff, hkeys, htotal]
  have hnodup : ∀ {o : List (κ × M)}, o.Pairwise (fun a b => a.1 < b.1) → o.Nodup :=
    fun ho => ho.imp fun hab heq => absurd (heq ▸ hab) (lt_irrefl _)
  have hperm := (List.perm_ext_iff_of_nodup (hnodup h.increasing) (hnodup h'.increasing)).mpr hmem
  exact hperm.eq_of_pairwise (fun a b _ _ hab hba => absurd (hab.trans hba) (lt_irrefl _))
    h.increasing h'.increasing

theorem of_perm (h : IsGroupSum l out) (hp : l.Perm l') : IsGroupSum l' out where
  increasing := h.increasing
  keys := fun k => by
    rw [h.keys]
    exact exists_congr fun a => and_congr_left fun _ => hp.mem_iff
  total := fun a ha => by rw [h.total a ha, totalOf_perm hp]

theorem refl (h : out.Pairwise fun a b => a.1 < b.1) : IsGroupSum out out where
  increasing := h
  keys := fun _ => Iff.rfl
  total := by
    induction out with
    | nil => simp
    | cons a out ih =>
      have hlt := (List.pairwise_cons.mp h).1
      have hrest := ih (List.pairwise_cons.mp h).2
      intro b hb
      rw [totalOf_cons]
      rcases List.mem_cons.mp hb with rfl | hb
      · rw [if_pos rfl, totalOf_eq_zero fun c hc => (hlt c hc).ne', add_zero]
      · rw [if_neg (hlt b hb).ne, zero_add]
        exact hrest b hb

/-- The sums of the result are those of the list. -/
theorem totalOf_eq (h : IsGroupSum l out) (k : κ) : totalOf out k = totalOf l k := by
  by_cases hk : ∃ a ∈ out, a.1 = k
  · obtain ⟨a, ha, rfl⟩ := hk
    rw [← (refl h.increasing).total a ha, h.total a ha]
  · have hl := mt (h.keys k).mpr hk
    push Not at hk hl
    rw [totalOf_eq_zero hk, totalOf_eq_zero hl]

/-- An entry with a key below all others. -/
theorem cons {a : κ × M} (h : IsGroupSum l out) (ha : ∀ b ∈ out, a.1 < b.1) :
    IsGroupSum (a :: l) (a :: out) where
  increasing := List.pairwise_cons.mpr ⟨ha, h.increasing⟩
  keys := fun k => by simp only [List.mem_cons, or_and_right, exists_or, h.keys]
  total := by
    have hnone : ∀ b ∈ l, b.1 ≠ a.1 := by
      intro b hb heq
      obtain ⟨c, hc, hcb⟩ := (h.keys b.1).mpr ⟨b, hb, rfl⟩
      exact (ha c hc).ne (heq.symm.trans hcb.symm)
    intro b hb
    rw [totalOf_cons]
    rcases List.mem_cons.mp hb with rfl | hb
    · rw [if_pos rfl, totalOf_eq_zero hnone, add_zero]
    · rw [if_neg (ha b hb).ne, zero_add]
      exact h.total b hb

/-- One more amount for the first key. -/
theorem add {a b : κ × M} (h : IsGroupSum l (b :: out)) (hab : a.1 = b.1) :
    IsGroupSum (a :: l) ((a.1, a.2 + b.2) :: out) := by
  obtain ⟨hlt, hout⟩ := List.pairwise_cons.mp h.increasing
  refine ⟨List.pairwise_cons.mpr ⟨fun c hc => hab ▸ hlt c hc, hout⟩, fun k => ?_, fun c hc => ?_⟩
  · have hkeys := h.keys k
    simp only [List.mem_cons, or_and_right, exists_or, exists_eq_left] at hkeys ⊢
    rw [← hkeys, hab, ← or_assoc, or_self]
  · rw [totalOf_cons]
    rcases List.mem_cons.mp hc with rfl | hc
    · rw [if_pos rfl, hab, h.total b (by simp)]
    · rw [if_neg (hab ▸ (hlt c hc).ne), zero_add]
      exact h.total c (by simp [hc])

/-- Summing in stages: the sums of the results of several lists are the sums of all of
them. -/
theorem flatten {ls outs : List (List (κ × M))} (hs : List.Forall₂ IsGroupSum ls outs)
    (h : IsGroupSum outs.flatten out) : IsGroupSum ls.flatten out := by
  have hkeys : ∀ k, (∃ a ∈ outs.flatten, a.1 = k) ↔ ∃ a ∈ ls.flatten, a.1 = k := by
    intro k
    clear h
    induction hs with
    | nil => rfl
    | cons hab _ ih =>
      simp only [List.flatten_cons, List.mem_append, or_and_right, exists_or, ih, hab.keys]
  have htotal : ∀ k, totalOf outs.flatten k = totalOf ls.flatten k := by
    intro k
    clear h hkeys
    induction hs with
    | nil => rfl
    | cons hab _ ih => simp only [List.flatten_cons, totalOf_append, ih, hab.totalOf_eq]
  exact ⟨h.increasing, fun k => by rw [h.keys, hkeys], fun a ha => by rw [h.total a ha, htotal]⟩

/-- Adding amounts of present keys to a result changes nothing exactly when they sum to
zero for each key. -/
theorem append_eq_iff {M : Type*} [AddCancelCommMonoid M] {l out out' : List (κ × M)}
    (hout : out.Pairwise fun a b => a.1 < b.1) (h : IsGroupSum (out ++ l) out')
    (hkeys : ∀ a ∈ l, ∃ b ∈ out, b.1 = a.1) : out' = out ↔ ∀ k, totalOf l k = 0 := by
  constructor
  · intro heq k
    have htotal := h.totalOf_eq k
    rw [totalOf_append, heq] at htotal
    exact left_eq_add.mp htotal
  · intro hzero
    refine h.unique (.refl hout) (fun k => ?_) fun k => ?_
    · constructor
      · rintro ⟨a, ha, rfl⟩
        rcases List.mem_append.mp ha with ha | ha
        · exact ⟨a, ha, rfl⟩
        · exact hkeys a ha
      · rintro ⟨a, ha, rfl⟩
        exact ⟨a, List.mem_append_left l ha, rfl⟩
    · rw [totalOf_append, hzero, add_zero]

end IsGroupSum

/-! ### Folding runs -/

/-- Neighbours with equal keys become one entry. -/
def foldRuns : List (κ × M) → List (κ × M)
  | [] => []
  | a :: l =>
    match foldRuns l with
    | [] => [a]
    | b :: out => if a.1 = b.1 then (a.1, a.2 + b.2) :: out else a :: b :: out

theorem foldRuns_cons_ne_nil (a : κ × M) (l : List (κ × M)) : foldRuns (a :: l) ≠ [] := by
  rw [foldRuns]
  split
  · simp
  · split <;> simp

theorem foldRuns_head? (l : List (κ × M)) :
    (foldRuns l).head?.map Prod.fst = l.head?.map Prod.fst := by
  cases l with
  | nil => rfl
  | cons a l =>
    rw [foldRuns]
    split
    · rfl
    · split <;> rfl

/-- The folding keeps the sum of all amounts. -/
theorem foldRuns_sum (l : List (κ × M)) :
    ((foldRuns l).map Prod.snd).sum = (l.map Prod.snd).sum := by
  induction l with
  | nil => rfl
  | cons a l ih =>
    rw [foldRuns]
    cases hl : foldRuns l with
    | nil => simp [← ih, hl]
    | cons b out =>
      simp only [hl, List.map_cons, List.sum_cons] at ih
      by_cases hab : a.1 = b.1
      · simp [hab, ← ih, add_assoc]
      · simp [hab, ← ih]

/-- A run of one key in front of another key becomes one entry. -/
theorem foldRuns_run {run rest : List (κ × M)} {k : κ} (hne : run ≠ []) (hrun : ∀ a ∈ run, a.1 = k)
    (hrest : ∀ a ∈ rest.head?, a.1 ≠ k) :
    foldRuns (run ++ rest) = (k, (run.map Prod.snd).sum) :: foldRuns rest := by
  induction run with
  | nil => exact absurd rfl hne
  | cons a run ih =>
    have ha : a.1 = k := hrun a (by simp)
    rw [List.cons_append, foldRuns]
    by_cases hnil : run = []
    · subst hnil
      have hhead := foldRuns_head? rest
      cases hfold : foldRuns rest with
      | nil => simp [hfold, ← ha]
      | cons b out =>
        rw [hfold] at hhead
        have hb : a.1 ≠ b.1 := by
          cases rest with
          | nil => simp at hhead
          | cons c rest =>
            have hc := hrest c rfl
            simp only [List.head?_cons, Option.map_some, Option.some.injEq] at hhead
            rw [hhead, ha]
            exact hc.symm
        simp [hfold, hb, ← ha]
    · rw [ih hnil fun b hb => hrun b (by simp [hb])]
      simp [ha]

/-- On a sorted list the folding sums by key. -/
theorem foldRuns_isGroupSum {l : List (κ × M)} (h : l.Pairwise fun a b => a.1 ≤ b.1) :
    IsGroupSum l (foldRuns l) := by
  induction l with
  | nil => exact ⟨List.Pairwise.nil, fun _ => Iff.rfl, by simp [foldRuns]⟩
  | cons a l ih =>
    obtain ⟨hle, hl⟩ := List.pairwise_cons.mp h
    have hsum := ih hl
    rw [foldRuns]
    cases hfold : foldRuns l with
    | nil =>
      have hnil : l = [] := by
        cases l with
        | nil => rfl
        | cons b l => exact absurd hfold (foldRuns_cons_ne_nil b l)
      rw [hnil]
      exact .refl (List.pairwise_singleton _ _)
    | cons b out =>
      rw [hfold] at hsum
      simp only
      split_ifs with hab
      · exact hsum.add hab
      · refine hsum.cons fun c hc => ?_
        obtain ⟨d, hd, hdb⟩ := (hsum.keys b.1).mp ⟨b, by simp, rfl⟩
        have hlt : a.1 < b.1 := lt_of_le_of_ne (hdb ▸ hle d hd) hab
        rcases List.mem_cons.mp hc with rfl | hc
        · exact hlt
        · exact hlt.trans ((List.pairwise_cons.mp hsum.increasing).1 c hc)

/-- The result has the sum of all amounts. -/
theorem IsGroupSum.sum_eq {l out : List (κ × M)} (h : IsGroupSum l out) :
    (out.map Prod.snd).sum = (l.map Prod.snd).sum := by
  have hsorted : (l.mergeSort fun a b => decide (a.1 ≤ b.1)).Pairwise fun a b => a.1 ≤ b.1 := by
    have hpair : (l.mergeSort fun a b => decide (a.1 ≤ b.1)).Pairwise
        fun a b => decide (a.1 ≤ b.1) = true := List.pairwise_mergeSort
      (fun a b c hab hbc => by simpa using (of_decide_eq_true hab).trans (of_decide_eq_true hbc))
      (fun a b => by simpa using le_total a.1 b.1) l
    exact hpair.imp fun hab => of_decide_eq_true hab
  have hperm := List.mergeSort_perm l fun a b => decide (a.1 ≤ b.1)
  have hfold := (foldRuns_isGroupSum hsorted).of_perm hperm
  rw [h.unique hfold (fun _ => Iff.rfl) fun _ => rfl, foldRuns_sum, (hperm.map _).sum_eq]

end MemoryLeak.GroupBy
