import MemoryLeak.Cluster.ThreeSorts

/-!
# The worklist of the array-based sort

The two arrays of `quick_sort_non_recursive_improve` have an entry for each cell of the range. A
range of `w + 1` cells is split `w` times, whatever the partitions return, so one entry is never
used, and its zero ends the loop.
-/
namespace MemoryLeak.Cluster.SortWorklist
open MemoryLeak.Loops

/-- The state before the first turn of `while (arr_hi[jump] > 0)`. -/
def improveStart (arr : Cells Int64) (low hi : ℤ) : Option ImproveState := do
  let length ← (intOf (hi - low)).bind fun d => intOf (d + 1)
  let arrLow ← storeInt (List.replicate (sizeTmp length / 4) 0) 0 low
  let arrHi ← storeInt (List.replicate (sizeTmp length / 4) 0) 0 hi
  some ⟨arrLow, arrHi, 0, 0, arr⟩

theorem quickSortNonRecursiveImprove_start {k n : ℕ} {arr : Cells Int64} {low hi : ℤ}
    (hlt : low < hi) : quickSortNonRecursiveImprove k n arr low hi =
      (improveStart arr low hi).bind fun s =>
        (whileLoop (improveTurn k) n s).map ImproveState.arr := by
  rw [quickSortNonRecursiveImprove, if_neg (by omega)]
  simp only [improveStart, bind, Option.bind_assoc, Option.bind_some, Option.map_eq_bind]
  rfl

/-- A turn in this state reads and writes inside of the arrays, which have `c` entries each; it
leaves the loop exactly when no segment is pending, in front of an entry that was never used. -/
structure SafeState (k c : ℕ) (s : ImproveState) : Prop where
  length_low : s.arrLow.length = c
  length_hi : s.arrHi.length = c
  inside : (improveTurn k s).isSome = true
  positive : ∀ g ∈ s.pending, 0 < g.hi
  stops_iff : (∃ s', improveTurn k s = some (.leave s')) ↔ s.pending = []
  sentinel : s.pending = [] → s.total < s.jump ∧ s.arrHi[s.jump]? = some 0

/-- With the partitions of a range given turns enough, every state of the loop is safe, and the
loop is left. -/
def WorklistSafe (arr : Cells Int64) (low hi : ℤ) : Prop :=
  ∀ k, (hi - low).toNat < k → ∃ start, improveStart arr low hi = some start ∧
    (∀ s, Visits (improveTurn k) start s → SafeState k (hi - low + 1).toNat s) ∧
    ∃ n last, whileLoop (improveTurn k) n start = some last

/-- Between two turns: the segments still to come lie in the range. -/
structure WorklistInv (arr : Cells Int64) (low hi : ℤ) (s : ImproveState) : Prop
    extends ImproveInv (hi - low + 1).toNat (hi - low).toNat s where
  inRange : ∀ g ∈ s.pending, low ≤ g.low ∧ g.hi ≤ hi
  sameCells : SameCells arr s.arr

variable {arr : Cells Int64} {low hi : ℤ} {k : ℕ} {s s' : ImproveState}

/-- The next segment is partitioned, and there is room for what that leaves. -/
theorem improveTurn_pending (hfilled : Filled arr low hi) (hmax : hi ≤ 2147483647)
    (hk : (hi - low).toNat < k) (hs : WorklistInv arr low hi s) {g : SortSegment}
    {rest : List SortSegment} (hp : s.pending = g :: rest) :
    ∃ s' j, improveTurn k s = some (.again s') ∧
      partition k s.arr g.low g.hi = some (s'.arr, j) ∧ SameCells s.arr s'.arr := by
  have hproper := hs.proper
  have hweights := hs.weights
  have hlen := hs.length_pending
  have hinRange := hs.inRange
  rw [hp] at hproper hweights hlen hinRange
  rw [List.map_cons, List.sum_cons] at hweights
  rw [List.length_cons] at hlen
  obtain ⟨hg0, hglt⟩ := hproper g List.mem_cons_self
  obtain ⟨hglow, hghi⟩ := hinRange g List.mem_cons_self
  have hcells : Filled s.arr g.low g.hi := fun c hc =>
    hs.sameCells.filled hfilled c ⟨hglow.trans hc.1, hc.2.trans hghi⟩
  obtain ⟨r, j, hpart, hsame⟩ := partition_total hcells hg0 hglt (hghi.trans hmax)
  have hpart : partition k s.arr g.low g.hi = some (r, j) := hpart k (by omega)
  obtain ⟨hlj, hjh⟩ := partition_index hglt hpart
  obtain ⟨hin, -, hsum⟩ := SortSegment.children_split hlj hjh
  have hchildren := length_le_weights fun u hu => (hin u hu).2.1
  have hrest := length_le_weights fun u hu => (hproper u (List.mem_cons_of_mem g hu)).2
  obtain ⟨s₁, hpush⟩ := pushAll_isSome hs.toImproveShape (g.children j) (by omega)
  refine ⟨s₁.advance r, j, ?_, hpart, hsame⟩
  rw [improveTurn_cons k hp (by omega), hpart, Option.bind_some, hpush, Option.map_some]

theorem improveTurn_worklistInv (hfilled : Filled arr low hi) (hmax : hi ≤ 2147483647)
    (hk : (hi - low).toNat < k) (hs : WorklistInv arr low hi s)
    (h : improveTurn k s = some (.again s')) : WorklistInv arr low hi s' := by
  obtain ⟨g, rest, j, hp, hpart, hnext, -, -⟩ := improveTurn_again hs.toImproveInv h
  obtain ⟨s₁, j₁, hturn, -, hsame⟩ := improveTurn_pending hfilled hmax hk hs hp
  obtain rfl : s₁ = s' := by
    rw [hturn] at h
    cases h
    rfl
  refine ⟨improveTurn_inv hs.toImproveInv h, ?_, hs.sameCells.trans hsame⟩
  have hinRange := hs.inRange
  rw [hp] at hinRange
  obtain ⟨hglow, hghi⟩ := hinRange g List.mem_cons_self
  have hglt := (hs.proper g (hp ▸ List.mem_cons_self)).2
  obtain ⟨hlj, hjh⟩ := partition_index hglt hpart
  rw [hnext]
  intro u hu
  rcases List.mem_append.mp hu with hu | hu
  · exact hinRange u (List.mem_cons_of_mem g hu)
  · obtain ⟨hul, -, huh⟩ := (SortSegment.children_split hlj hjh).1 u hu
    exact ⟨hglow.trans hul, huh.trans hghi⟩

theorem WorklistInv.safe (hfilled : Filled arr low hi) (hlt : low < hi) (hmax : hi ≤ 2147483647)
    (hk : (hi - low).toNat < k) (hs : WorklistInv arr low hi s) :
    SafeState k (hi - low + 1).toNat s := by
  have hpositive : ∀ g ∈ s.pending, 0 < g.hi := fun g hg => by
    have := hs.proper g hg
    omega
  have hlen := hs.length_pending
  have hweights := hs.weights
  cases hp : s.pending with
  | nil =>
    rw [hp, List.map_nil, List.sum_nil] at hweights
    rw [hp, List.length_nil] at hlen
    have hjump : s.jump < (hi - low + 1).toNat := by omega
    have hturn := improveTurn_nil k hs.toImproveShape hp
    rw [if_pos hjump] at hturn
    refine ⟨hs.length_low, hs.length_hi, by rw [hturn]; rfl, hpositive,
      iff_of_true ⟨s, hturn⟩ hp, fun _ => ⟨by omega, ?_⟩⟩
    have hget := List.getElem?_eq_getElem (hs.length_hi ▸ hjump)
    rw [hget, hs.zeros s.jump (by omega) _ hget]
  | cons g rest =>
    obtain ⟨s', j, hturn, -, -⟩ := improveTurn_pending hfilled hmax hk hs hp
    refine ⟨hs.length_low, hs.length_hi, by rw [hturn]; rfl, hpositive, iff_of_false ?_ ?_, ?_⟩
    · rintro ⟨s₁, hleave⟩
      rw [hturn] at hleave
      cases hleave
    · rw [hp]
      exact List.cons_ne_nil g rest
    · intro hnil
      rw [hp] at hnil
      cases hnil

/-- Below 2^30 cells the size of the arrays does not wrap around. -/
theorem improveStart_inv (hlow : 0 ≤ low) (hlt : low < hi) (hsmall : hi - low + 1 < 1073741824) :
    ∃ start, improveStart arr low hi = some start ∧ WorklistInv arr low hi start := by
  have hlen : (intOf (hi - low)).bind (fun d => intOf (d + 1)) = some (hi - low + 1) := by
    rw [intOf_eq (by omega) (by omega), Option.bind_some, intOf_eq (by omega) (by omega)]
  have hsize : sizeTmp (hi - low + 1) / 4 = (hi - low + 1).toNat := by
    unfold sizeTmp
    omega
  have hpos : 0 < (hi - low + 1).toNat := by omega
  refine ⟨_, ?_, improveInv_init hpos hlow hlt arr, ?_, fun c => rfl⟩
  · simp only [improveStart, hlen, hsize, storeInt, List.length_replicate, if_pos hpos, bind,
      Option.bind_some]
  · obtain ⟨c, hc⟩ : ∃ d, (hi - low + 1).toNat = d + 1 := ⟨(hi - low).toNat, by omega⟩
    rw [hc]
    intro g hg
    obtain rfl := List.mem_singleton.mp (show g ∈ [⟨low, hi⟩] from hg)
    exact ⟨le_rfl, le_rfl⟩

/-- The worklist is safe, and its sentinel is reached, exactly for ranges of less than 2^30
cells. -/
theorem worklist_safe_iff {arr : Cells Int64} {low hi : ℤ} (hlow : 0 ≤ low) (hlt : low < hi)
    (hmax : hi ≤ 2147483647) (hfilled : Filled arr low hi) :
    WorklistSafe arr low hi ↔ hi - low + 1 < 1073741824 := by
  constructor
  · intro h
    obtain ⟨start, hstart, -, n, last, hloop⟩ := h _ (Nat.lt_succ_self _)
    by_contra hlarge
    have hnone := @improve_none low hi ((hi - low).toNat + 1) n arr hlow hmax (by omega)
    rw [quickSortNonRecursiveImprove_start hlt, hstart, Option.bind_some, hloop] at hnone
    cases hnone
  · intro hsmall k hk
    obtain ⟨start, hstart, hinv⟩ := @improveStart_inv arr low hi hlow hlt hsmall
    refine ⟨start, hstart, fun s hs => ?_, ?_⟩
    · exact (hs.inv (fun _ _ hs hturn => improveTurn_worklistInv hfilled hmax hk hs hturn)
        hinv).safe hfilled hlt hmax hk
    · obtain ⟨r, hrun, -⟩ := quickSort_total (g := ⟨low, hi⟩) hfilled hlow hlt hmax le_rfl
      have hquick : quickSort k k arr low hi = some r := hrun k k hk hk.le
      rw [← improve_eq_quickSort hlow hlt hsmall hk, quickSortNonRecursiveImprove_start hlt,
        hstart, Option.bind_some] at hquick
      obtain ⟨last, hloop, -⟩ := Option.map_eq_some_iff.mp hquick
      exact ⟨k, last, hloop⟩

/-- Three cells, the last of which is never partitioned alone. -/
theorem worklist_safe_sample :
    WorklistSafe (fun c => some (if c = 1 then 4294967301 else 7)) 0 2 :=
  (worklist_safe_iff le_rfl (by decide) (by decide) fun _ _ => rfl).mpr (by decide)

/-- An array of 2^30 zeros: the arrays have no entry, and the first store is outside of them. -/
theorem worklist_overrun :
    ¬ WorklistSafe (fun c => if 0 ≤ c ∧ c < 1073741824 then some 0 else none) 0 1073741823 := by
  intro h
  obtain ⟨start, hstart, -⟩ := h _ (Nat.lt_succ_self _)
  cases hstart

end MemoryLeak.Cluster.SortWorklist
