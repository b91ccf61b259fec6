import Mathlib.Logic.Function.Basic
import Mathlib.Data.List.Nodup

/-!
# Chained buckets as a map

A table of chains, one for each index. Keys of one chain are distinct and every
item stands in the chain of its key, so that looking a key up in its own chain
finds the one item of the whole table with that key. The placement may be
required of some keys only, those on which the index is a function of the key.
-/
namespace MemoryLeak.BucketMap

variable {ι κ α : Type*} [DecidableEq ι] [DecidableEq κ]
variable (home : κ → ι) (key : α → κ)

/-- Every item whose key is in `good` stands in the chain of its key. -/
def Placed (good : κ → Prop) (b : ι → List α) : Prop :=
  ∀ i, ∀ a ∈ b i, good (key a) → home (key a) = i

/-- No chain holds two items with one key. -/
def Distinct (b : ι → List α) : Prop := ∀ i, ((b i).map key).Nodup

/-- The item found for a key in the key's own chain. -/
def lookup (b : ι → List α) (k : κ) : Option α := (b (home k)).find? fun a => decide (key a = k)

/-- Put an item at the head of a chain. -/
def insert (b : ι → List α) (i : ι) (a : α) : ι → List α := Function.update b i (a :: b i)

/-- Rewrite the items of one chain that have a given key. -/
def modify (b : ι → List α) (i : ι) (k : κ) (f : α → α) : ι → List α :=
  Function.update b i ((b i).map fun a => if key a = k then f a else a)

variable {home key} {good : κ → Prop} {b : ι → List α}

omit [DecidableEq ι] in
theorem lookup_isSome_iff (k : κ) :
    (lookup home key b k).isSome ↔ ∃ a ∈ b (home k), key a = k := by
  simp [lookup, List.find?_isSome]

omit [DecidableEq ι] in
theorem lookup_key {k : κ} {a : α} (h : lookup home key b k = some a) : key a = k := by
  simpa using List.find?_some h

omit [DecidableEq ι] in
theorem lookup_mem {k : κ} {a : α} (h : lookup home key b k = some a) : a ∈ b (home k) :=
  List.mem_of_find?_eq_some h

omit [DecidableEq ι] in
/-- With distinct keys the search returns whichever item of the chain has the key. -/
theorem lookup_eq_some_of_mem (hd : Distinct key b) {a : α} (h : a ∈ b (home (key a))) :
    lookup home key b (key a) = some a := by
  obtain ⟨a', ha'⟩ := Option.isSome_iff_exists.mp ((lookup_isSome_iff (key a)).mpr ⟨a, h, rfl⟩)
  have hinj := List.inj_on_of_nodup_map (hd (home (key a)))
  rw [ha', hinj (lookup_mem ha') h (lookup_key ha')]

omit [DecidableEq ι] [DecidableEq κ] in
/-- One key occurs at one place of the table only. -/
theorem unique (hp : Placed home key good b) (hd : Distinct key b) {i j : ι} {p q : ℕ} {a a' : α}
    (ha : (b i)[p]? = some a) (ha' : (b j)[q]? = some a')
    (hk : key a = key a') (hg : good (key a)) : i = j ∧ p = q := by
  have hi : home (key a) = i := hp i a (List.mem_of_getElem? ha) hg
  have hj : home (key a') = j := hp j a' (List.mem_of_getElem? ha') (hk ▸ hg)
  have hij : i = j := hi.symm.trans (hk ▸ hj)
  subst hij
  refine ⟨rfl, ?_⟩
  have hpl : p < ((b i).map key).length := by
    simpa using (List.getElem?_eq_some_iff.mp ha).1
  apply (List.getElem?_inj hpl (hd i)).mp
  simp [ha, ha', hk]

omit [DecidableEq κ] in
theorem placed_insert (hp : Placed home key good b) {i : ι} {a : α}
    (ha : good (key a) → home (key a) = i) : Placed home key good (insert b i a) := by
  intro j x hx hg
  by_cases hj : j = i
  · subst hj
    simp only [insert, Function.update_self, List.mem_cons] at hx
    rcases hx with rfl | hx
    · exact ha hg
    · exact hp j x hx hg
  · simp only [insert, Function.update_of_ne hj] at hx
    exact hp j x hx hg

omit [DecidableEq κ] in
theorem distinct_insert (hd : Distinct key b) {i : ι} {a : α}
    (ha : ∀ x ∈ b i, key x ≠ key a) : Distinct key (insert b i a) := by
  intro j
  by_cases hj : j = i
  · subst hj
    simp only [insert, Function.update_self, List.map_cons, List.nodup_cons]
    refine ⟨?_, hd j⟩
    intro hmem
    obtain ⟨x, hx, hk⟩ := List.mem_map.mp hmem
    exact ha x hx hk
  · simpa only [insert, Function.update_of_ne hj] using hd j

/-- A new item is found under its key. -/
theorem lookup_insert_self {i : ι} {a : α} (ha : home (key a) = i) :
    lookup home key (insert b i a) (key a) = some a := by
  simp [lookup, insert, ha]

/-- Other keys are found as before an insertion. -/
theorem lookup_insert_ne {i : ι} {a : α} {k : κ} (hk : key a ≠ k) :
    lookup home key (insert b i a) k = lookup home key b k := by
  unfold lookup insert
  by_cases hj : home k = i
  · subst hj
    simp [hk]
  · simp [Function.update_of_ne hj]

theorem modify_map_key {i : ι} {k : κ} {f : α → α} (hf : ∀ a, key (f a) = key a) (j : ι) :
    (modify key b i k f j).map key = (b j).map key := by
  by_cases hj : j = i
  · subst hj
    simp only [modify, Function.update_self, List.map_map]
    apply List.map_congr_left
    intro a _
    simp only [Function.comp_apply]
    split_ifs with h
    · exact hf a
    · rfl
  · simp [modify, Function.update_of_ne hj]

theorem placed_modify (hp : Placed home key good b) {i : ι} {k : κ} {f : α → α}
    (hf : ∀ a, key (f a) = key a) : Placed home key good (modify key b i k f) := by
  intro j x hx hg
  have hmem : key x ∈ (b j).map key := by
    rw [← modify_map_key hf j]
    exact List.mem_map_of_mem hx
  obtain ⟨y, hy, hky⟩ := List.mem_map.mp hmem
  rw [← hky] at hg ⊢
  exact hp j y hy hg

theorem distinct_modify (hd : Distinct key b) {i : ι} {k : κ} {f : α → α}
    (hf : ∀ a, key (f a) = key a) : Distinct key (modify key b i k f) := by
  intro j
  rw [modify_map_key hf j]
  exact hd j

/-- Rewriting the items of one key changes what is found under that key only. -/
theorem lookup_modify {k : κ} {f : α → α} (hf : ∀ a, key (f a) = key a) (k' : κ) :
    lookup home key (modify key b (home k) k f) k' =
      if k' = k then (lookup home key b k).map f else lookup home key b k' := by
  have hfind : ∀ l : List α, (l.map fun a => if key a = k then f a else a).find?
      (fun a => decide (key a = k')) =
        if k' = k then (l.find? fun a => decide (key a = k)).map f
        else l.find? fun a => decide (key a = k') := by
    intro l
    induction l with
    | nil => simp
    | cons a l ih =>
      rw [List.map_cons, List.find?_cons, ih]
      by_cases hk : k' = k
      · subst hk
        by_cases ha : key a = k' <;> simp [ha, hf]
      · by_cases ha : key a = k
        · simp [ha, hf, hk, Ne.symm hk]
        · simp [ha, hk, List.find?_cons]
  unfold lookup modify
  by_cases hj : home k' = home k
  · simp only [hj, Function.update_self]
    exact hfind _
  · have hk : k' ≠ k := fun h => hj (congrArg home h)
    simp [Function.update_of_ne hj, hk]

end MemoryLeak.BucketMap
