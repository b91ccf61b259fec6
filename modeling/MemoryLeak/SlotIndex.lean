import Mathlib.Data.List.Induction
import Mathlib.Data.List.Nodup
import Mathlib.Data.List.Perm.Subperm
import Mathlib.Logic.Function.Basic
import Mathlib.Data.Int.Order.Basic

/-!
# Indexes with a fixed number of slots

Rows in the order in which they came, and for each bucket a fixed number of slots for
row numbers, negative where a slot is free. A row that finds no free slot is stored
but not indexed.
-/
namespace MemoryLeak.SlotIndex

variable {ι ρ κ : Type*} [DecidableEq ι] [DecidableEq κ]

/-- The stored rows and the slots of each bucket. -/
structure Index (ι ρ : Type*) where
  rows : List ρ
  slots : ι → List ℤ

/-- Put a row number in the first free slot, if there is one. -/
def fillSlot (k : ℕ) : List ℤ → List ℤ
  | [] => []
  | x :: xs => if x < 0 then k :: xs else x :: fillSlot k xs

/-- The row with a key that the slots lead to; a free slot ends the search. -/
def probe (key : ρ → κ) (rows : List ρ) (k : κ) : List ℤ → Option ρ
  | [] => none
  | x :: xs =>
    if x < 0 then none
    else match rows[x.toNat]? with
      | none => none
      | some r => if key r = k then some r else probe key rows k xs

/-- Store a row and index it in a bucket. -/
def insert (s : Index ι ρ) (bucket : ι) (r : ρ) : Index ι ρ :=
  ⟨s.rows ++ [r], Function.update s.slots bucket (fillSlot s.rows.length (s.slots bucket))⟩

/-- No rows, and `cap` free slots in each bucket. -/
def empty (cap : ℕ) : Index ι ρ := ⟨[], fun _ => List.replicate cap (-1)⟩

/-- The slots that row numbers leave when they come one after the other. -/
def slotsOf : ℕ → List ℕ → List ℤ
  | 0, _ => []
  | cap + 1, [] => -1 :: slotsOf cap []
  | cap + 1, k :: ks => k :: slotsOf cap ks

theorem slotsOf_nil (cap : ℕ) : slotsOf cap [] = List.replicate cap (-1) := by
  induction cap with
  | zero => rfl
  | succ cap ih => rw [slotsOf, ih, List.replicate_succ]

/-- The used slots come first. -/
theorem slotsOf_eq (cap : ℕ) (ks : List ℕ) :
    slotsOf cap ks = (ks.take cap).map Nat.cast ++ List.replicate (cap - ks.length) (-1) := by
  induction cap generalizing ks with
  | zero => simp [slotsOf]
  | succ cap ih =>
    cases ks with
    | nil =>
      rw [slotsOf_nil, List.take_nil, List.map_nil, List.nil_append, List.length_nil, Nat.sub_zero]
    | cons k ks =>
      rw [slotsOf, ih, List.take_succ_cons, List.map_cons, List.cons_append, List.length_cons,
        Nat.add_sub_add_right]

theorem fillSlot_slotsOf (cap k : ℕ) (ks : List ℕ) :
    fillSlot k (slotsOf cap ks) = slotsOf cap (ks ++ [k]) := by
  induction cap generalizing ks with
  | zero => rfl
  | succ cap ih =>
    cases ks with
    | nil => rfl
    | cons j ks =>
      have hfull : ¬ (j : ℤ) < 0 := by omega
      rw [slotsOf, fillSlot, if_neg hfull, ih]
      rfl

/-- The search runs through the rows that found a slot. -/
theorem probe_slotsOf (key : ρ → κ) {rows : List ρ} (k : κ) (cap : ℕ) {ks : List ℕ} {rs : List ρ}
    (h : ks.map (fun i => rows[i]?) = rs.map some) :
    probe key rows k (slotsOf cap ks) = (rs.take cap).find? fun r => key r = k := by
  induction cap generalizing ks rs with
  | zero => rfl
  | succ cap ih =>
    cases ks with
    | nil =>
      have hnil : rs = [] := by simpa using h.symm
      rw [hnil]
      rfl
    | cons i ks =>
      cases rs with
      | nil => simp at h
      | cons r rs =>
        obtain ⟨hr, hrest⟩ := List.cons.inj h
        have hrow : rows[i]? = some r := hr
        have hused : ¬ (i : ℤ) < 0 := by omega
        rw [slotsOf, probe, if_neg hused, Int.toNat_natCast, hrow, List.take_succ_cons,
          List.find?_cons]
        by_cases hk : key r = k
        · simp [hk]
        · simp [hk, ih hrest]

section Read

variable {α σ γ : Type*} {read : α → Option ρ} {xs : List α} {rows : List ρ}

/-- Rows that are read on the way may be read before. -/
theorem foldlM_read (step : σ → ρ → Option σ) {s s' : σ} :
    xs.foldlM (fun s x => (read x).bind (step s)) s = some s' ↔
      ∃ rows : List ρ, xs.map read = rows.map some ∧ rows.foldlM step s = some s' := by
  induction xs generalizing s with
  | nil =>
    refine ⟨fun h => ⟨[], rfl, h⟩, ?_⟩
    rintro ⟨rows, hrows, hfold⟩
    cases List.map_eq_nil_iff.mp hrows.symm
    exact hfold
  | cons x xs ih =>
    rw [List.foldlM_cons]
    constructor
    · intro h
      obtain ⟨s₁, hx, hrest⟩ := Option.bind_eq_some_iff.mp h
      obtain ⟨r, hr, hstep⟩ := Option.bind_eq_some_iff.mp hx
      obtain ⟨rows, hrows, hfold⟩ := ih.mp hrest
      refine ⟨r :: rows, by rw [List.map_cons, List.map_cons, hr, hrows], ?_⟩
      rw [List.foldlM_cons]
      exact Option.bind_eq_some_iff.mpr ⟨s₁, hstep, hfold⟩
    · rintro ⟨rows, hrows, hfold⟩
      cases rows with
      | nil => cases hrows
      | cons r rows =>
        obtain ⟨hr, hrest⟩ := List.cons.inj hrows
        rw [List.foldlM_cons] at hfold
        obtain ⟨s₁, hstep, hfold⟩ := Option.bind_eq_some_iff.mp hfold
        exact Option.bind_eq_some_iff.mpr
          ⟨s₁, Option.bind_eq_some_iff.mpr ⟨r, hr, hstep⟩, ih.mpr ⟨rows, hrest, hfold⟩⟩

theorem exists_map_read :
    (∃ rows : List ρ, xs.map read = rows.map some) ↔ ∀ x ∈ xs, ∃ r, read x = some r := by
  induction xs with
  | nil => exact iff_of_true ⟨[], rfl⟩ (by simp)
  | cons x xs ih =>
    rw [List.forall_mem_cons, ← ih]
    constructor
    · rintro ⟨rows, hrows⟩
      cases rows with
      | nil => cases hrows
      | cons r rows => exact ⟨⟨r, (List.cons.inj hrows).1⟩, rows, (List.cons.inj hrows).2⟩
    · rintro ⟨⟨r, hr⟩, rows, hrows⟩
      exact ⟨r :: rows, by rw [List.map_cons, List.map_cons, hr, hrows]⟩

theorem length_read (h : xs.map read = rows.map some) : xs.length = rows.length := by
  simpa only [List.length_map] using congrArg List.length h

/-! A key that is in a row before it is read, and the same in what is read. -/

variable {key : ρ → γ} {keyOf : α → Option γ}

theorem map_key (h : xs.map read = rows.map some)
    (hkey : ∀ x r, read x = some r → keyOf x = some (key r)) :
    xs.map keyOf = (rows.map key).map some := by
  have hall := exists_map_read.mp ⟨rows, h⟩
  calc xs.map keyOf = xs.map fun x => (read x).map key := List.map_congr_left fun x hx => by
        obtain ⟨r, hr⟩ := hall x hx
        rw [hkey x r hr, hr, Option.map_some]
    _ = (rows.map some).map (Option.map key) := by rw [← h, List.map_map]; rfl
    _ = (rows.map key).map some := by rw [List.map_map, List.map_map]; rfl

theorem filterMap_key (h : xs.map read = rows.map some)
    (hkey : ∀ x r, read x = some r → keyOf x = some (key r)) :
    xs.filterMap keyOf = rows.map key := by
  calc xs.filterMap keyOf = (xs.map keyOf).filterMap id := by rw [List.filterMap_map]; rfl
    _ = ((rows.map key).map some).filterMap id := by rw [map_key h hkey]
    _ = rows.map key := by rw [List.filterMap_map]; exact List.filterMap_some

theorem forall_mem_key (h : xs.map read = rows.map some)
    (hkey : ∀ x r, read x = some r → keyOf x = some (key r)) {P : γ → ρ → Prop} :
    (∀ x ∈ xs, ∃ k r, keyOf x = some k ∧ read x = some r ∧ P k r) ↔ ∀ r ∈ rows, P (key r) r := by
  calc (∀ x ∈ xs, ∃ k r, keyOf x = some k ∧ read x = some r ∧ P k r)
      ↔ ∀ x ∈ xs, ∃ r, read x = some r ∧ P (key r) r := forall₂_congr fun x _ => by
        constructor
        · rintro ⟨k, r, hk, hr, hP⟩
          rw [hkey x r hr, Option.some.injEq] at hk
          exact ⟨r, hr, hk ▸ hP⟩
        · rintro ⟨r, hr, hP⟩
          exact ⟨key r, r, hkey x r hr, hr, hP⟩
    _ ↔ ∀ o ∈ xs.map read, ∃ r, o = some r ∧ P (key r) r := by rw [List.forall_mem_map]
    _ ↔ ∀ r ∈ rows, ∃ r', some r = some r' ∧ P (key r') r' := by rw [h, List.forall_mem_map]
    _ ↔ ∀ r ∈ rows, P (key r) r := by simp

end Read

section Load

variable (cap : ℕ) (bucket : ρ → ι)

/-- The index after rows have been stored one after the other. -/
def load (rows : List ρ) : Index ι ρ := rows.foldl (fun s r => insert s (bucket r) r) (empty cap)

theorem load_snoc (rows : List ρ) (r : ρ) :
    load cap bucket (rows ++ [r]) = insert (load cap bucket rows) (bucket r) r := by
  rw [load, List.foldl_append]
  rfl

theorem load_rows (rows : List ρ) : (load cap bucket rows).rows = rows := by
  induction rows using List.reverseRecOn with
  | nil => rfl
  | append_singleton rows r ih => rw [load_snoc, insert, ih]

/-- The slots of a bucket are filled with the numbers of its rows, in order. -/
theorem load_slots (rows : List ρ) (b : ι) :
    ∃ ks, (load cap bucket rows).slots b = slotsOf cap ks ∧
      ks.map (fun i => rows[i]?) = (rows.filter fun r => bucket r = b).map some ∧
      ks.Pairwise (· < ·) := by
  induction rows using List.reverseRecOn with
  | nil => exact ⟨[], (slotsOf_nil cap).symm, rfl, List.Pairwise.nil⟩
  | append_singleton rows r ih =>
    obtain ⟨ks, hslots, hks, hinc⟩ := ih
    have hlt : ∀ i ∈ ks, i < rows.length := by
      intro i hi
      have hsome : rows[i]? ∈ (rows.filter fun r => bucket r = b).map some :=
        hks ▸ List.mem_map_of_mem hi
      obtain ⟨x, -, hx⟩ := List.mem_map.mp hsome
      exact (List.getElem?_eq_some_iff.mp hx.symm).1
    -- the numbers of the rows before stay
    have hkeep : ks.map (fun i => (rows ++ [r])[i]?) = ks.map fun i => rows[i]? :=
      List.map_congr_left fun i hi => List.getElem?_append_left (hlt i hi)
    rw [load_snoc, insert, load_rows]
    by_cases hb : bucket r = b
    · subst hb
      refine ⟨ks ++ [rows.length], ?_, ?_, ?_⟩
      · simp only [Function.update_self, hslots, fillSlot_slotsOf]
      · simp [hkeep, hks, List.filter_append]
      · rw [List.pairwise_append]
        exact ⟨hinc, List.pairwise_singleton _ _, fun i hi j hj =>
          List.mem_singleton.mp hj ▸ hlt i hi⟩
    · refine ⟨ks, ?_, ?_, hinc⟩
      · simp only [Function.update_of_ne (Ne.symm hb), hslots]
      · simp [hkeep, hks, List.filter_append, hb]

/-- What the search in a row's bucket finds. -/
theorem probe_load (key : ρ → κ) (rows : List ρ) (b : ι) (k : κ) :
    probe key (load cap bucket rows).rows k ((load cap bucket rows).slots b) =
      ((rows.filter fun r => bucket r = b).take cap).find? fun r => key r = k := by
  obtain ⟨ks, hslots, hks, -⟩ := load_slots cap bucket rows b
  rw [hslots, load_rows, probe_slotsOf key k cap hks]

/-- Rows with distinct keys are all found exactly when no bucket has more rows than slots. -/
theorem probe_load_iff {key : ρ → κ} {rows : List ρ} (hkeys : (rows.map key).Nodup) :
    (∀ r ∈ rows, probe key (load cap bucket rows).rows (key r)
      ((load cap bucket rows).slots (bucket r)) = some r) ↔
    ∀ r ∈ rows, rows.countP (fun x => bucket x = bucket r) ≤ cap := by
  simp only [probe_load, List.countP_eq_length_filter]
  constructor
  · intro h r hr
    have hsubset : rows.filter (fun x => bucket x = bucket r) ⊆
        (rows.filter fun x => bucket x = bucket r).take cap := by
      intro x hx
      obtain ⟨hmem, hb⟩ := List.mem_filter.mp hx
      have hfound := List.mem_of_find?_eq_some (h x hmem)
      rwa [of_decide_eq_true hb] at hfound
    have hnodup : (rows.filter fun x => bucket x = bucket r).Nodup := hkeys.of_map.filter _
    have hle := (List.subperm_of_subset hnodup hsubset).length_le
    rw [List.length_take] at hle
    omega
  · intro h r hr
    rw [List.take_of_length_le (h r hr)]
    have hmem : r ∈ rows.filter fun x => bucket x = bucket r := by simp [hr]
    obtain ⟨x, hx⟩ := Option.isSome_iff_exists.mp (List.find?_isSome.mpr ⟨r, hmem, by simp⟩ :
      ((rows.filter fun x => bucket x = bucket r).find? fun x => key x = key r).isSome)
    have hxmem := (List.mem_filter.mp (List.mem_of_find?_eq_some hx)).1
    have hxkey : key x = key r := by simpa using List.find?_some hx
    rw [hx, List.inj_on_of_nodup_map hkeys hxmem hr hxkey]

end Load

end MemoryLeak.SlotIndex
