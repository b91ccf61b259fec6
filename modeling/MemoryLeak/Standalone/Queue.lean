import MemoryLeak.Standalone.Splits

/-!
# The queue of the stand-alone quick sort

`quick_sort_non_recursive` of `src/quicksort/quicksort.c` pushes the parts of a segment only if the
index returned is not its first, and the second part begins with the value at that index. Such a
part begins with its smallest value and is never changed again, so the queue sorts exactly when
each partition of the first segment leaves the rest sorted.
-/
namespace MemoryLeak.Standalone
open MemoryLeak.Loops MemoryLeak.Sorting MemoryLeak.Cluster MemoryLeak.TwoEnded

/-- A turn of `while (root)`. -/
def queueTurn (k : ℕ) (s : QueueState) : Option (Turn QueueState) :=
  match s.root with
  | [] => some (.leave s)
  | tmp :: root => do
    let (arr, j) ← partition k s.arr tmp.low tmp.hi
    let root := if j > tmp.low then root ++ [⟨tmp.low, j - 1⟩, ⟨j, tmp.hi⟩] else root
    some (.again ⟨root, arr⟩)

def quickSortNonRecursive (k n : ℕ) (arr : Cells Int64) (low hi : ℤ) : Option (Cells Int64) :=
  if low ≥ hi then some arr
  else (whileLoop (queueTurn k) n ⟨[⟨low, hi⟩], arr⟩).map QueueState.arr

variable {save : Int64 → Option Int64} {arr arr' r : Cells Int64} {low hi j : ℤ} {k n : ℕ}

/-! ### Partitions that change nothing -/

/-- The partition of one cell. -/
theorem partition_single (harr : Sortable save arr low low) (hlt : low < 2147483647) :
    PartitionTo save arr low low arr low := by
  intro k hk
  obtain ⟨v, hv⟩ := harr.filled.get le_rfl le_rfl
  have hlow := harr.low_nonneg
  have hint : intOf (low + 1) = some (low + 1) := intOf_eq (by omega) (by omega)
  have hleave : partitionTurn save v k ⟨arr, low + 1, low⟩ = some (.leave ⟨arr, low + 1, low⟩) :=
    if_neg (show ¬ low + 1 < low by omega)
  have hswap : swapBy save arr low low = some arr := by
    rw [swapBy_eq hv (harr.saved low ⟨le_rfl, le_rfl⟩ v hv) (Option.isSome_of_eq_some hv),
      Equiv.swap_self]
    rfl
  simp only [partitionBy, hv, hint, whileLoop_leave hleave (Nat.lt_of_le_of_lt (Nat.zero_le _) hk),
    placePivot, if_neg (show ¬ low + 1 = low by omega), if_pos (show low < low + 1 by omega), hswap,
    bind, Option.bind_some]

/-- The value at `low` is not above those of the range. -/
def LeastFirst (arr : Cells Int64) (low hi : ℤ) : Prop :=
  ∀ p ∈ arr low, Among arr low hi fun x => longCmp p x ≤ 0

/-- The scan from above passes every value, and the indexes meet behind the first one. -/
theorem partitionLoop_leastFirst {p : Int64} (harr : Sortable save arr low hi) (hlt : low < hi)
    (hleast : Among arr low hi fun x => longCmp p x ≤ 0) (hk : (hi - low).toNat < k) :
    whileLoop (partitionTurn save p k) k ⟨arr, low + 1, hi⟩ =
      some ⟨arr, low + 1, low + 1⟩ := by
  have hfilled : Filled arr (low + 1) hi := (harr.part (by omega) le_rfl).filled
  have hpos : 0 < k := Nat.lt_of_le_of_lt (Nat.zero_le _) hk
  have hleave : partitionTurn save p k ⟨arr, low + 1, low + 1⟩ =
      some (.leave ⟨arr, low + 1, low + 1⟩) := if_neg (lt_irrefl _)
  rcases (show low + 1 ≤ hi by omega).eq_or_lt with rfl | hlt'
  · exact whileLoop_leave hleave hpos
  · obtain ⟨j, hdown, hlj, hjh, -, hstop⟩ :=
      scanDown_spec longCmp p hlt'.le hfilled (hi - low).toNat (by omega)
    have hj : j = low + 1 := by
      by_contra hne
      obtain ⟨y, hy⟩ := hfilled.get hlj hjh
      have habove := hstop (by omega) y hy
      have hbelow := hleast j ⟨by omega, hjh⟩ y hy
      omega
    subst hj
    have hstay : scanUp arr p (low + 1) (low + 1) = some (.leave (low + 1)) :=
      if_neg (lt_irrefl _)
    have hup := whileLoop_leave hstay hpos
    have hturn : partitionTurn save p k ⟨arr, low + 1, hi⟩ =
        some (.again ⟨arr, low + 1, low + 1⟩) := by
      simp only [partitionTurn, if_pos hlt', scanDown_eq hlt'.le hfilled, hdown k hk, hup,
        if_neg (lt_irrefl (low + 1)), bind, Option.bind_some]
    rw [whileLoop_again hturn hpos]
    exact whileLoop_leave hleave (by omega)

/-- The partition of a range that begins with its smallest value. -/
theorem partition_leastFirst (harr : Sortable save arr low hi) (hlt : low < hi)
    (hleast : LeastFirst arr low hi) : PartitionTo save arr low hi arr
      (if arr low = arr (low + 1) then low + 1 else low) := by
  intro k hk
  obtain ⟨p, hp⟩ := harr.filled.get le_rfl hlt.le
  obtain ⟨x, hx⟩ := harr.filled.get (show low ≤ low + 1 by omega) (show low + 1 ≤ hi by omega)
  have hlow := harr.low_nonneg
  have hmax := harr.hi_le
  have hint : intOf (low + 1) = some (low + 1) := intOf_eq (by omega) (by omega)
  have hloop := partitionLoop_leastFirst harr hlt (hleast p hp) hk
  have hself : longCmp p p = 0 := longCmp_comparison.self p
  have hpx : ¬ 0 < longCmp p x :=
    not_lt.mpr (hleast p hp (low + 1) ⟨by omega, by omega⟩ x hx)
  by_cases heq : p = x
  · have hcells : arr low = arr (low + 1) := by rw [hp, hx, heq]
    have hnot : ¬ longCmp p x < 0 := by
      rw [← heq, hself]
      exact lt_irrefl 0
    rw [if_pos hcells]
    simp only [partitionBy, hp, hint, hloop, placePivot, hx, if_neg hpx, if_neg hnot, bind,
      Option.bind_some, if_true]
  · have hcells : ¬ arr low = arr (low + 1) := by
      rw [hp, hx, Option.some.injEq]
      exact heq
    have hless : longCmp p x < 0 := by
      have hne : p.toInt ≠ x.toInt := fun h => heq (Int64.toInt_inj.mp h)
      unfold longCmp at hpx ⊢
      omega
    rw [if_neg hcells]
    simp only [partitionBy, hp, hint, hloop, placePivot, hx, if_neg hpx, if_pos hless,
      Int.add_sub_cancel, hself, lt_irrefl, if_false, bind, Option.bind_some, if_true]

/-- Every partition, also that of one cell. -/
theorem Sortable.partition_le (h : Sortable save arr low hi) (hle : low ≤ hi)
    (hlow : low < 2147483647) : ∃ r j, PartitionTo save arr low hi r j ∧ Placed r low hi j ∧
      PermutedOn (within low hi) arr r := by
  rcases hle.eq_or_lt with rfl | hlt
  · obtain ⟨v, hv⟩ := h.filled.get le_rfl le_rfl
    refine ⟨arr, low, partition_single h hlow, ⟨le_rfl, le_rfl, v, hv, ?_, ?_⟩, .refl _ _⟩
    · exact .empty (by omega) _
    · exact .empty (by omega) _
  · exact h.partition hlt

theorem Sortable.partition_le_eq (h : Sortable save arr low hi) (hle : low ≤ hi)
    (hlow : low < 2147483647) (hpart : PartitionTo save arr low hi r j) :
    Placed r low hi j ∧ PermutedOn (within low hi) arr r := by
  obtain ⟨r', j', hpart', hplaced, hperm⟩ := h.partition_le hle hlow
  obtain ⟨rfl, rfl⟩ := hpart.unique hpart'
  exact ⟨hplaced, hperm⟩

/-! ### The queue -/

/-- What is pushed after a partition of a segment at `j`. -/
def pushed (g : SortSegment) (j : ℤ) : List SortSegment :=
  if j > g.low then [⟨g.low, j - 1⟩, ⟨j, g.hi⟩] else []

theorem queueTurn_cons {g : SortSegment} (root : List SortSegment)
    (hpart : PartitionTo toTmp arr g.low g.hi r j) (hk : (g.hi - g.low).toNat < k) :
    queueTurn k ⟨g :: root, arr⟩ = some (.again ⟨root ++ pushed g j, r⟩) := by
  have hrun : partition k arr g.low g.hi = some (r, j) := hpart k hk
  simp only [queueTurn, hrun, bind, Option.bind_some, pushed]
  split_ifs
  · rfl
  · rw [List.append_nil]

/-- A segment that begins with its smallest value, and if it ends at the largest `int` has
another value too. -/
structure Settled (arr : Cells Int64) (g : SortSegment) : Prop where
  le : g.low ≤ g.hi
  sortable : Sortable toTmp arr g.low g.hi
  least : LeastFirst arr g.low g.hi
  ends : g.hi = 2147483647 → ∃ c ∈ within g.low g.hi, arr c ≠ arr g.low

theorem Settled.congr {g : SortSegment} (h : Settled arr g)
    (heq : ∀ c ∈ within g.low g.hi, arr' c = arr c) : Settled arr' g where
  le := h.le
  sortable := h.sortable.congr heq
  least p hp := by
    rw [heq g.low ⟨le_rfl, h.le⟩] at hp
    exact (h.least p hp).congr fun c hc hc' => heq c ⟨hc, hc'⟩
  ends hmax := by
    obtain ⟨c, hc, hne⟩ := h.ends hmax
    refine ⟨c, hc, ?_⟩
    rwa [heq c hc, heq g.low ⟨le_rfl, h.le⟩]

/-- The weight of a segment of one cell is one, for its turn. -/
def turnsOf (g : SortSegment) : ℕ := 2 * (g.hi - g.low).toNat + 1

theorem turnsOf_pushed {g : SortSegment} (hjh : j ≤ g.hi) :
    ((pushed g j).map turnsOf).sum < turnsOf g := by
  unfold pushed turnsOf
  split_ifs with hlt
  · simp only [List.map_cons, List.map_nil, List.sum_cons, List.sum_nil]
    omega
  · simp

/-- A settled segment is partitioned into settled ones, and the array stays as it is. -/
theorem Settled.partition {g : SortSegment} (h : Settled arr g) :
    ∃ j, PartitionTo toTmp arr g.low g.hi arr j ∧ j ≤ g.hi ∧
      ∀ u ∈ pushed g j, g.low ≤ u.low ∧ Settled arr u := by
  have harr := h.sortable
  have hmax := harr.hi_le
  rcases h.le.eq_or_lt with heq | hlt
  · have hlow : g.low < 2147483647 := by
      by_contra hge
      obtain ⟨c, hc, hne⟩ := h.ends (by omega)
      have hc' : c = g.low := by
        rw [mem_within] at hc
        omega
      exact hne (by rw [hc'])
    have hpart := partition_single (harr.part le_rfl h.le) hlow
    refine ⟨g.low, by rwa [← heq], h.le, ?_⟩
    rw [pushed, if_neg (lt_irrefl _)]
    exact fun u hu => absurd hu List.not_mem_nil
  · have hpart := partition_leastFirst harr hlt h.least
    refine ⟨_, hpart, ?_, ?_⟩
    · split_ifs <;> omega
    · by_cases hcells : arr g.low = arr (g.low + 1)
      · rw [if_pos hcells, pushed, if_pos (by omega), Int.add_sub_cancel]
        intro u hu
        rcases List.mem_cons.mp hu with rfl | hu
        · refine ⟨le_rfl, le_rfl, harr.part le_rfl h.le, fun p hp c hc => ?_, ?_⟩
          · exact h.least p hp c ⟨hc.1, hc.2.trans h.le⟩
          · intro hend
            dsimp only at hend
            omega
        · obtain rfl := List.mem_singleton.mp hu
          have hle : g.low ≤ g.low + 1 := by omega
          refine ⟨hle, hlt, harr.part hle le_rfl, fun p hp c hc => ?_, ?_⟩
          · dsimp only at hp hc
            rw [← hcells] at hp
            exact h.least p hp c ⟨hle.trans hc.1, hc.2⟩
          · intro hend
            obtain ⟨c, hc, hne⟩ := h.ends hend
            dsimp only
            have hc' : c ≠ g.low := fun heq => hne (by rw [heq])
            refine ⟨c, ⟨by have := hc.1; omega, hc.2⟩, ?_⟩
            rwa [← hcells]
      · rw [if_neg hcells, pushed, if_neg (lt_irrefl _)]
        exact fun u hu => absurd hu List.not_mem_nil

/-- The partitions of the first segment, one after the other, with the array they leave. -/
inductive LeftChain : Cells Int64 → ℤ → ℤ → Cells Int64 → Prop where
  | stop {arr r : Cells Int64} {low hi : ℤ} (hpart : PartitionTo toTmp arr low hi r low) :
      LeftChain arr low hi r
  | next {arr r r' : Cells Int64} {low hi j : ℤ} (hpart : PartitionTo toTmp arr low hi r j)
      (hlt : low < j) (hleft : LeftChain r low (j - 1) r') : LeftChain arr low hi r'

theorem LeftChain.permuted (h : LeftChain arr low hi r) (harr : Sortable toTmp arr low hi)
    (hle : low ≤ hi) (hlow : low < 2147483647) : PermutedOn (within low hi) arr r := by
  induction h with
  | stop hpart => exact (harr.partition_le_eq hle hlow hpart).2
  | @next arr r r' low hi j hpart hlt _ ih =>
    obtain ⟨⟨-, hjh, -⟩, hperm⟩ := harr.partition_le_eq hle hlow hpart
    have hleft : Sortable toTmp r low (j - 1) := (harr.permuted hperm).part le_rfl (by omega)
    exact hperm.trans ((ih hleft (by omega) hlow).mono (within_mono le_rfl (by omega)))

theorem leftChain_total (harr : Sortable toTmp arr low hi) (hle : low ≤ hi)
    (hlow : low < 2147483647) : ∃ r, LeftChain arr low hi r := by
  induction hm : (hi - low).toNat using Nat.strongRecOn generalizing arr hi with
  | ind m ih =>
    obtain ⟨r, j, hpart, ⟨hlj, hjh, -⟩, hperm⟩ := harr.partition_le hle hlow
    rcases hlj.eq_or_lt with rfl | hlt
    · exact ⟨r, .stop hpart⟩
    · have hleft : Sortable toTmp r low (j - 1) := (harr.permuted hperm).part le_rfl (by omega)
      obtain ⟨r', hchain⟩ := ih _ (by omega) hleft (by omega) rfl
      exact ⟨r', .next hpart hlt hchain⟩

/-- A second part of the first segment that ends at the largest `int` has two values at least. -/
def LastPart (arr : Cells Int64) (low hi : ℤ) : Prop :=
  hi = 2147483647 → ∀ r j, PartitionTo toTmp arr low hi r j → low < j →
    ∃ c ∈ within j hi, r c ≠ r j

/-- Between two turns: one segment begins at `low` and goes the way of the chain, or the chain has
come to its end; the others are settled. -/
def QueueInv (low : ℤ) (last : Cells Int64) (s : QueueState) : Prop :=
  (s.arr = last ∧ ∀ g ∈ s.root, Settled s.arr g) ∨
  ∃ pre post e, s.root = pre ++ ⟨low, e⟩ :: post ∧ low ≤ e ∧ Sortable toTmp s.arr low e ∧
    LeftChain s.arr low e last ∧ LastPart s.arr low e ∧
    ∀ g ∈ pre ++ post, e < g.low ∧ Settled s.arr g

/-- The second part of the first segment is settled. -/
theorem settled_part {e : ℤ} (harr : Sortable toTmp arr low e) (hle : low ≤ e)
    (hlow : low < 2147483647) (hlast : LastPart arr low e)
    (hpart : PartitionTo toTmp arr low e r j) (hlt : low < j) : Settled r ⟨j, e⟩ := by
  obtain ⟨⟨hlj, hje, p, hp, -, habove⟩, hperm⟩ := harr.partition_le_eq hle hlow hpart
  refine ⟨hje, (harr.permuted hperm).part hlj le_rfl, fun q hq => ?_, fun hend => ?_⟩
  · rw [Option.mem_def, hp] at hq
    cases hq
    exact .cons hp (longCmp_comparison.self p).le habove
  · exact hlast hend r j hpart hlt

/-- A turn for the first segment. -/
theorem queueInv_first {last : Cells Int64} {e : ℤ} {post : List SortSegment} (hle : low ≤ e)
    (hlow : low < 2147483647) (harr : Sortable toTmp arr low e) (hchain : LeftChain arr low e last)
    (hlast : LastPart arr low e) (hpost : ∀ g ∈ post, e < g.low ∧ Settled arr g) :
    ∃ r j, PartitionTo toTmp arr low e r j ∧ j ≤ e ∧
      QueueInv low last ⟨post ++ pushed ⟨low, e⟩ j, r⟩ := by
  have hkeep : ∀ {r : Cells Int64}, PermutedOn (within low e) arr r → ∀ g ∈ post, Settled r g :=
    fun hperm g hg => (hpost g hg).2.congr fun c hc => hperm.outside fun h => by
      have := (hpost g hg).1
      have := hc.1
      have := h.2
      omega
  cases hchain with
  | stop hpart =>
    obtain ⟨-, hperm⟩ := harr.partition_le_eq hle hlow hpart
    refine ⟨last, low, hpart, hle, .inl ⟨rfl, ?_⟩⟩
    rw [pushed, if_neg (lt_irrefl _), List.append_nil]
    exact hkeep hperm
  | @next _ r _ _ _ j hpart hlt hleft =>
    obtain ⟨⟨-, hje, -⟩, hperm⟩ := harr.partition_le_eq hle hlow hpart
    refine ⟨r, j, hpart, hje, .inr ⟨post, [⟨j, e⟩], j - 1, ?_, by omega, ?_, hleft, ?_, ?_⟩⟩
    · rw [pushed, if_pos hlt]
    · exact (harr.permuted hperm).part le_rfl (by omega)
    · intro hend
      have := harr.hi_le
      omega
    · intro g hg
      rcases List.mem_append.mp hg with hg | hg
      · have := (hpost g hg).1
        exact ⟨by omega, hkeep hperm g hg⟩
      · obtain rfl := List.mem_singleton.mp hg
        exact ⟨by dsimp only; omega, settled_part harr hle hlow hlast hpart hlt⟩

/-- The turn for a head of the queue. -/
theorem queueTurn_weight {g : SortSegment} {rest : List SortSegment} {B : ℕ}
    (hpart : PartitionTo toTmp arr g.low g.hi r j) (hjh : j ≤ g.hi)
    (hB : ((g :: rest).map turnsOf).sum ≤ B) :
    (∀ k, B < k → queueTurn k ⟨g :: rest, arr⟩ = some (.again ⟨rest ++ pushed g j, r⟩)) ∧
      ((rest ++ pushed g j).map turnsOf).sum < ((g :: rest).map turnsOf).sum := by
  have hless := turnsOf_pushed hjh
  simp only [List.map_cons, List.sum_cons, List.map_append, List.sum_append] at hB ⊢
  refine ⟨fun k hk => queueTurn_cons rest hpart ?_, by omega⟩
  unfold turnsOf at hB
  omega

/-- A turn keeps the invariant and takes weight away, or leaves the array of the chain. -/
theorem queueTurn_spec {last : Cells Int64} {s : QueueState} (hlow : low < 2147483647)
    (hs : QueueInv low last s) (B : ℕ) (hB : (s.root.map turnsOf).sum ≤ B) :
    (∃ s', (∀ k, B < k → queueTurn k s = some (.again s')) ∧ QueueInv low last s' ∧
      (s'.root.map turnsOf).sum < (s.root.map turnsOf).sum) ∨
    ∃ s', (∀ k, B < k → queueTurn k s = some (.leave s')) ∧ s'.arr = last := by
  obtain ⟨root, arr⟩ := s
  have hturn : ∀ {g : SortSegment} {rest : List SortSegment} {r : Cells Int64} {j : ℤ},
      root = g :: rest → PartitionTo toTmp arr g.low g.hi r j → j ≤ g.hi →
      (∀ k, B < k → queueTurn k ⟨root, arr⟩ = some (.again ⟨rest ++ pushed g j, r⟩)) ∧
      ((rest ++ pushed g j).map turnsOf).sum < (root.map turnsOf).sum := by
    rintro g rest r j rfl hpart hjh
    exact queueTurn_weight hpart hjh hB
  rcases hs with ⟨hlast, hall⟩ | ⟨pre, post, e, hroot, hle, harr, hchain, hlastPart, hrest⟩
  · dsimp only at hlast hall
    cases root with
    | nil => exact .inr ⟨⟨[], arr⟩, fun _ _ => rfl, hlast⟩
    | cons g rest =>
      obtain ⟨j, hpart, hjh, hpushed⟩ := (hall g List.mem_cons_self).partition
      obtain ⟨hrun, hless⟩ := hturn rfl hpart hjh
      refine .inl ⟨_, hrun, .inl ⟨hlast, fun u hu => ?_⟩, hless⟩
      rcases List.mem_append.mp hu with hu | hu
      · exact hall u (List.mem_cons_of_mem g hu)
      · exact (hpushed u hu).2
  · dsimp only at hroot harr hchain hlastPart hrest
    cases pre with
    | nil =>
      obtain ⟨r, j, hpart, hje, hinv⟩ := queueInv_first hle hlow harr hchain hlastPart hrest
      obtain ⟨hrun, hless⟩ := hturn hroot hpart hje
      exact .inl ⟨_, hrun, hinv, hless⟩
    | cons g pre =>
      obtain ⟨hg, hsettled⟩ := hrest g List.mem_cons_self
      obtain ⟨j, hpart, hjh, hpushed⟩ := hsettled.partition
      obtain ⟨hrun, hless⟩ := hturn hroot hpart hjh
      refine .inl ⟨_, hrun, .inr ⟨pre, post ++ pushed g j, e, ?_, hle, harr, hchain, hlastPart, ?_⟩,
        hless⟩
      · exact List.append_assoc pre (⟨low, e⟩ :: post) (pushed g j)
      · intro u hu
        rw [← List.append_assoc] at hu
        rcases List.mem_append.mp hu with hu | hu
        · exact hrest u (List.mem_cons_of_mem g hu)
        · obtain ⟨hgu, hu⟩ := hpushed u hu
          exact ⟨by omega, hu⟩

/-- The queue leaves the array of the chain. -/
theorem queue_run {last : Cells Int64} (harr : Sortable toTmp arr low hi) (hlt : low < hi)
    (hchain : LeftChain arr low hi last) (hlast : LastPart arr low hi) :
    ∃ B, ∀ k n, B < k → B < n → quickSortNonRecursive k n arr low hi = some last := by
  have hmax := harr.hi_le
  have hinit : QueueInv low last ⟨[⟨low, hi⟩], arr⟩ :=
    .inr ⟨[], [], hi, rfl, hlt.le, harr, hchain, hlast, fun g hg => absurd hg List.not_mem_nil⟩
  obtain ⟨s, hloop, hs⟩ := whileLoop_spec
    (fun s : QueueState => (s.root.map turnsOf).sum) (turnsOf ⟨low, hi⟩)
    (fun s hs hB => queueTurn_spec (by omega) hs _ hB) hinit (by simp)
  refine ⟨turnsOf ⟨low, hi⟩, fun k n hk hn => ?_⟩
  rw [quickSortNonRecursive, if_neg (by omega), hloop k n hk (by simpa using hn), Option.map_some,
    hs]

/-! ### A last part of one value -/

/-- A segment up to the largest `int` holds one value only, and the others end before it. -/
def TailInv (low hi : ℤ) (v : Option Int64) (s : QueueState) : Prop :=
  Sortable toTmp s.arr low hi ∧ ∃ pre post m, s.root = pre ++ ⟨m, hi⟩ :: post ∧ low ≤ m ∧ m ≤ hi ∧
    (∀ c ∈ within m hi, s.arr c = v) ∧
    ∀ g ∈ pre ++ post, low ≤ g.low ∧ g.low ≤ g.hi ∧ g.hi < m

theorem pushed_within {g : SortSegment} (hjh : j ≤ g.hi) :
    ∀ u ∈ pushed g j, g.low ≤ u.low ∧ u.low ≤ u.hi ∧ u.hi ≤ g.hi := by
  intro u hu
  unfold pushed at hu
  split_ifs at hu with hlt
  · rcases List.mem_cons.mp hu with rfl | hu
    · dsimp only
      omega
    · obtain rfl := List.mem_singleton.mp hu
      dsimp only
      omega
  · exact absurd hu List.not_mem_nil

/-- In the last cell, `low + 1` is no `int`. -/
theorem partition_last (hmax : hi = 2147483647) (harr : Sortable toTmp arr hi hi) (k : ℕ) :
    partition k arr hi hi = none := by
  obtain ⟨w, hw⟩ := harr.filled.get le_rfl le_rfl
  have hint : intOf (hi + 1) = none := if_neg (by omega)
  simp only [partition, partitionBy, hw, hint, bind, Option.bind_some, Option.bind_none]

/-- A range with one value only. -/
theorem partition_constant {v : Option Int64} (harr : Sortable toTmp arr low hi) (hlt : low < hi)
    (hconst : ∀ c ∈ within low hi, arr c = v) : PartitionTo toTmp arr low hi arr (low + 1) := by
  have hfirst := hconst low ⟨le_rfl, hlt.le⟩
  have hleast : LeastFirst arr low hi := fun p hp c hc x hx => by
    rw [Option.mem_def, hfirst] at hp
    rw [Option.mem_def, hconst c hc, hp] at hx
    cases hx
    exact (longCmp_comparison.self p).le
  have hpart := partition_leastFirst harr hlt hleast
  have hsame : arr low = arr (low + 1) := by
    rw [hfirst, hconst (low + 1) ⟨by omega, by omega⟩]
  rw [if_pos hsame] at hpart
  exact hpart

/-- There is always one more such segment, down to a single cell whose partition overflows. -/
theorem queueTurn_tail {v : Option Int64} {s s' : QueueState} (hmax : hi = 2147483647)
    (hk : (hi - low).toNat < k) (hs : TailInv low hi v s)
    (h : queueTurn k s = some (.again s')) : TailInv low hi v s' := by
  obtain ⟨root, arr⟩ := s
  obtain ⟨harr, pre, post, m, hroot, hlm, hmh, hconst, hrest⟩ := hs
  dsimp only at harr hroot hconst
  subst hroot
  cases pre with
  | nil =>
    have hpart_m : Sortable toTmp arr m hi := harr.part hlm le_rfl
    rcases hmh.eq_or_lt with rfl | hlt
    · simp only [List.nil_append, queueTurn, partition_last hmax hpart_m, bind,
        Option.bind_none] at h
      cases h
    · have hpart := partition_constant hpart_m hlt hconst
      have hturn := queueTurn_cons (g := ⟨m, hi⟩) (k := k) post hpart (by dsimp only; omega)
      rw [pushed, if_pos (by dsimp only; omega), Int.add_sub_cancel] at hturn
      rw [List.nil_append, hturn] at h
      cases h
      refine ⟨harr, post ++ [⟨m, m⟩], [], m + 1, ?_, by omega, by omega,
        fun c hc => hconst c ⟨by have := hc.1; omega, hc.2⟩, ?_⟩
      · simp
      · intro g hg
        rw [List.append_nil] at hg
        rcases List.mem_append.mp hg with hg | hg
        · have := hrest g hg
          omega
        · obtain rfl := List.mem_singleton.mp hg
          exact ⟨hlm, le_rfl, by dsimp only; omega⟩
  | cons g pre =>
    obtain ⟨hgl, hgh, hgm⟩ := hrest g List.mem_cons_self
    obtain ⟨r, j, hpart, ⟨hlj, hjh, -⟩, hperm⟩ :=
      (harr.part hgl (show g.hi ≤ hi by omega)).partition_le hgh (by omega)
    have hturn := queueTurn_cons (k := k) (pre ++ ⟨m, hi⟩ :: post) hpart (by omega)
    rw [List.cons_append, hturn] at h
    cases h
    refine ⟨harr.permuted (hperm.mono (within_mono hgl (by omega))), pre, post ++ pushed g j, m, ?_,
      hlm, hmh, fun c hc => ?_, fun u hu => ?_⟩
    · exact List.append_assoc pre (⟨m, hi⟩ :: post) (pushed g j)
    · dsimp only
      rw [hperm.outside fun h => by have := hc.1; have := h.2; omega]
      exact hconst c hc
    · rw [← List.append_assoc] at hu
      rcases List.mem_append.mp hu with hu | hu
      · exact hrest u (List.mem_cons_of_mem g hu)
      · have := pushed_within hjh u hu
        omega

/-- Where the queue comes to its end, there was no such segment. -/
theorem lastPart_of_run (harr : Sortable toTmp arr low hi) (hlt : low < hi)
    (hk : (hi - low).toNat < k)
    (hrun : quickSortNonRecursive k n arr low hi = some r) : LastPart arr low hi := by
  intro hmax r₁ j hpart hlj
  by_contra hother
  have hconst : ∀ c ∈ within j hi, r₁ c = r₁ j := fun c hc =>
    by_contra fun hne => hother ⟨c, hc, hne⟩
  obtain ⟨⟨-, hjh, -⟩, hperm⟩ := harr.partition_eq hlt hpart
  rw [quickSortNonRecursive, if_neg (by omega)] at hrun
  obtain ⟨s, hloop, -⟩ := Option.map_eq_some_iff.mp hrun
  have hfirst := queueTurn_cons (g := ⟨low, hi⟩) (k := k) [] hpart hk
  cases n with
  | zero => cases hloop
  | succ n =>
    rw [whileLoop_again hfirst (Nat.succ_pos n)] at hloop
    have hinit : TailInv low hi (r₁ j) ⟨[] ++ pushed ⟨low, hi⟩ j, r₁⟩ := by
      refine ⟨harr.permuted hperm, [⟨low, j - 1⟩], [], j, ?_, hlj.le, hjh, hconst, ?_⟩
      · rw [pushed, if_pos hlj]
        rfl
      · intro g hg
        obtain rfl := List.mem_singleton.mp hg
        exact ⟨le_rfl, by dsimp only; omega, by dsimp only; omega⟩
    obtain ⟨s₁, ⟨-, pre, post, m, hroot, -⟩, hleave⟩ := whileLoop_left
      (fun s s' hs hturn => queueTurn_tail hmax hk hs hturn) hinit hloop
    unfold queueTurn at hleave
    split at hleave
    · rename_i hnil
      rw [hnil] at hroot
      simp at hroot
    · obtain ⟨x, -, hleave⟩ := Option.bind_eq_some_iff.mp hleave
      cases hleave

/-! ### Sorted parts -/

/-- Sorted values in the cells of a range stand in one order only. -/
theorem sorted_unique (hfilled : Filled arr low hi) (hperm : PermutedOn (within low hi) arr r)
    (harr : SortedOn longCmp arr low hi) (hr : SortedOn longCmp r low hi) : r = arr := by
  let cells : List ℤ := List.map (fun i : ℕ => low + (i : ℤ)) (List.range (hi - low + 1).toNat)
  have hcells : ∀ c, c ∈ cells ↔ c ∈ within low hi := by
    intro c
    simp only [cells, List.mem_map, List.mem_range, mem_within]
    constructor
    · rintro ⟨i, hi', rfl⟩
      omega
    · intro hc
      exact ⟨(c - low).toNat, by omega, by omega⟩
  have hless : cells.Pairwise (· < ·) := by
    rw [List.pairwise_map]
    exact List.pairwise_lt_range.imp fun h => by omega
  have hsorted : ∀ m : Cells Int64, SortedOn longCmp m low hi →
      (cells.map m).Pairwise fun x y => ∀ a ∈ x, ∀ b ∈ y, longCmp a b ≤ 0 := by
    intro m hm
    rw [List.pairwise_map]
    refine hless.imp_of_mem fun ha hb hab => ?_
    have ha' := mem_within.mp ((hcells _).mp ha)
    have hb' := mem_within.mp ((hcells _).mp hb)
    exact hm _ _ ha'.1 hab.le hb'.2
  have hsome : ∀ x ∈ cells.map arr, ∃ v, x = some v := by
    intro x hx
    obtain ⟨c, hc, rfl⟩ := List.mem_map.mp hx
    exact Option.isSome_iff_exists.mp (hfilled c ((hcells c).mp hc))
  have hsame := hperm.perm_map (hless.imp fun h => h.ne) hcells
  have hmap : cells.map r = cells.map arr := by
    refine hsame.eq_of_pairwise (fun x y hx hy hxy hyx => ?_) (hsorted r hr) (hsorted arr harr)
    obtain ⟨v, rfl⟩ := hsome x (hsame.mem_iff.mp hx)
    obtain ⟨w, rfl⟩ := hsome y hy
    have hvw := hxy v rfl w rfl
    have hwv := hyx w rfl v rfl
    rw [Option.some.injEq]
    apply Int64.toInt_inj.mp
    unfold longCmp at hvw hwv
    omega
  funext c
  by_cases hc : c ∈ within low hi
  · exact List.map_inj_left.mp hmap c ((hcells c).mpr hc)
  · exact hperm.outside hc

/-- Each partition of the first segment leaves what it does not push sorted. -/
inductive LeftSorted : Cells Int64 → ℤ → ℤ → Prop where
  | stop {arr r : Cells Int64} {low hi : ℤ} (hpart : PartitionTo toTmp arr low hi r low)
      (hsorted : SortedOn longCmp r low hi) : LeftSorted arr low hi
  | next {arr r : Cells Int64} {low hi j : ℤ} (hpart : PartitionTo toTmp arr low hi r j)
      (hlt : low < j) (hright : SortedOn longCmp r j hi) (hleft : LeftSorted r low (j - 1)) :
      LeftSorted arr low hi

theorem SortedOn.mono {m : Cells Int64} {l h : ℤ} (hs : SortedOn longCmp m low hi) (hl : low ≤ l)
    (hh : h ≤ hi) : SortedOn longCmp m l h :=
  fun i k hi' hik hk => hs i k (hl.trans hi') hik (hk.trans hh)

/-- What one partition says of the segment. -/
theorem leftSorted_partition_iff {r : Cells Int64} {j : ℤ}
    (hpart : PartitionTo toTmp arr low hi r j) (hlj : low ≤ j) :
    LeftSorted arr low hi ↔
      SortedOn longCmp r j hi ∧ (low < j → LeftSorted r low (j - 1)) := by
  constructor
  · intro h
    cases h with
    | stop hpart' hsorted =>
      obtain ⟨rfl, rfl⟩ := hpart.unique hpart'
      exact ⟨hsorted, fun hlt => absurd hlt (lt_irrefl _)⟩
    | next hpart' hlt hright hleft =>
      obtain ⟨rfl, rfl⟩ := hpart.unique hpart'
      exact ⟨hright, fun _ => hleft⟩
  · rintro ⟨hright, hleft⟩
    rcases hlj.eq_or_lt with rfl | hlt
    · exact .stop hpart hright
    · exact .next hpart hlt hright (hleft hlt)

theorem leftSorted_iff {last : Cells Int64} (harr : Sortable toTmp arr low hi) (hle : low ≤ hi)
    (hlow : low < 2147483647) (hchain : LeftChain arr low hi last) :
    LeftSorted arr low hi ↔ SortedOn longCmp last low hi := by
  induction hchain with
  | stop hpart =>
    rw [leftSorted_partition_iff hpart le_rfl]
    exact and_iff_left fun h => absurd h (lt_irrefl _)
  | @next arr r last low hi j hpart hlt hchain ih =>
    obtain ⟨⟨hlj, hjh, p, hp, hbelow, habove⟩, hperm⟩ := harr.partition_le_eq hle hlow hpart
    have hleft : Sortable toTmp r low (j - 1) := (harr.permuted hperm).part le_rfl (by omega)
    have hperm' := hchain.permuted hleft (by omega) hlow
    have hkeep : ∀ c, j ≤ c → c ≤ hi → last c = r c := fun c hc _ =>
      hperm'.outside fun h => by have := h.2; omega
    rw [leftSorted_partition_iff hpart hlj, forall_prop_of_true hlt, ih hleft (by omega) hlow]
    constructor
    · rintro ⟨hright, hsorted⟩
      have hp' : last j = some p := (hkeep j le_rfl hjh).trans hp
      have hbelow' := hperm'.forall_mem (P := fun v => ∀ x ∈ v, 0 ≤ longCmp p x) hbelow
      have habove' := habove.congr fun c hc hc' => hkeep c (by omega) hc'
      exact hsorted.join longCmp_comparison (hright.congr hkeep) hbelow'
        (.cons hp' (longCmp_comparison.self p).le habove')
    · intro h
      have hright : SortedOn longCmp r j hi :=
        (SortedOn.mono h hlj le_rfl).congr fun c hc hc' => (hkeep c hc hc').symm
      exact ⟨hright, SortedOn.mono h le_rfl (by omega)⟩

/-! ### The splits of the list of cells -/

/-- The values in the cells of a range that has values. -/
def cellsOf (arr : Cells Int64) (low hi : ℤ) : List Int64 :=
  (List.range (hi - low + 1).toNat).map fun i : ℕ => (arr (low + i)).getD 0

theorem fill_cellsOf (hfilled : Filled arr low hi) : fill arr low (cellsOf arr low hi) = arr := by
  funext k
  unfold fill cellsOf
  rw [List.length_map, List.length_range]
  split_ifs with hk
  · obtain ⟨v, hv⟩ := hfilled.get hk.1 (show k ≤ hi by omega)
    have hcell : low + ((k - low).toNat : ℤ) = k := by omega
    rw [List.getElem?_map, List.getElem?_range (by omega), Option.map_some, hcell, hv]
    rfl
  · rfl

variable {g : Cells Int64} {l : List Int64} {p x : Int64} {ys : List Int64}

theorem fill_getElem (i : ℕ) (hi : i < l.length) : fill g low l (low + i) = some l[i] := by
  unfold fill
  rw [if_pos (by omega), ← List.getElem?_eq_getElem hi]
  congr 1
  omega

theorem cellsOf_fits (hfilled : Filled arr low hi) (hfits : Among arr low hi FitsInt) :
    ∀ v ∈ cellsOf arr low hi, FitsInt v := by
  intro v hv
  obtain ⟨i, hi', rfl⟩ := List.mem_map.mp hv
  rw [List.mem_range] at hi'
  have hc : low + (i : ℤ) ∈ within low hi := ⟨by omega, by omega⟩
  obtain ⟨w, hw⟩ := hfilled.get hc.1 hc.2
  rw [hw]
  exact hfits _ hc w hw

theorem sortable_fill (hfits : ∀ v ∈ l, FitsInt v) (hlow : 0 ≤ low)
    (hmax : low + l.length ≤ 2147483648) :
    Sortable toTmp (fill g low l) low (low + l.length - 1) := by
  apply sortable_of_fits hlow (by omega) (fill_filled le_rfl (by omega))
  intro c hc v hv
  rw [mem_within] at hc
  obtain ⟨i, hi⟩ := Int.eq_ofNat_of_zero_le (show 0 ≤ c - low by omega)
  obtain rfl : c = low + i := by omega
  rw [Option.mem_def, fill_getElem i (by omega)] at hv
  cases hv
  exact hfits _ (List.getElem_mem _)

theorem sortedOn_fill : SortedOn longCmp (fill g low l) low (low + l.length - 1) ↔
    l.Pairwise fun a b => longCmp a b ≤ 0 := by
  rw [List.pairwise_iff_getElem]
  constructor
  · intro h i j hi hj hij
    exact h (low + i) (low + j) (by omega) (by omega) (by omega) _ (fill_getElem i hi) _
      (fill_getElem j hj)
  · intro h i k hi hik hk a ha b hb
    obtain ⟨m, hm⟩ := Int.eq_ofNat_of_zero_le (show 0 ≤ i - low by omega)
    obtain ⟨n, hn⟩ := Int.eq_ofNat_of_zero_le (show 0 ≤ k - low by omega)
    obtain rfl : i = low + m := by omega
    obtain rfl : k = low + n := by omega
    rw [Option.mem_def, fill_getElem m (by omega)] at ha
    rw [Option.mem_def, fill_getElem n (by omega)] at hb
    cases ha
    cases hb
    rcases (show m ≤ n by omega).eq_or_lt with rfl | hlt
    · exact (longCmp_comparison.self _).le
    · exact h m n (by omega) (by omega) hlt

/-- What the partition of the cells of a list leaves, and the index it returns. -/
theorem partitionTo_fill (hfits : ∀ v ∈ p :: x :: ys, FitsInt v) (hlow : 0 ≤ low)
    (hmax : low + (p :: x :: ys).length ≤ 2147483648) :
    let s := (pivoting longCmp).parts p x ys
    PartitionTo toTmp (fill g low (p :: x :: ys)) low (low + (p :: x :: ys).length - 1)
      (fill g low (s.left ++ ([p] ++ s.right))) (low + s.left.length) := by
  intro s
  have harr := sortable_fill (g := g) hfits hlow hmax
  rw [List.length_cons, List.length_cons] at hmax
  have hhi : low + ((p :: x :: ys).length : ℤ) - 1 = low + 1 + ys.length := by
    rw [List.length_cons, List.length_cons]
    omega
  obtain ⟨B, hrun⟩ := partitionBy_fill (g := g) (p := p) (x := x) hlow (by omega) ys
  obtain ⟨-, -, hmoved⟩ := (pivoting longCmp).parts_subset p x ys
  have hrun := hrun (B + 1) (Nat.lt_succ_self B)
  rw [outcome, if_pos fun v hv => hfits v (hmoved hv), ← hhi] at hrun
  obtain ⟨r, hr, hcells⟩ := partitionBy_keeps keepsValues_eq fitting_savesAs_toTmp le_rfl
    (fun _ => rfl) hrun
  rw [← funext hcells] at hr
  exact harr.partitionTo (by omega) hr

/-- Each side of a split holds values of the list. -/
theorem parts_fit (hfits : ∀ v ∈ p :: x :: ys, FitsInt v) :
    (∀ v ∈ ((pivoting longCmp).parts p x ys).left, FitsInt v) ∧
      ∀ v ∈ ((pivoting longCmp).parts p x ys).right, FitsInt v := by
  obtain ⟨hl, hr, -⟩ := (pivoting longCmp).parts_subset p x ys
  exact ⟨fun v hv => hfits v (hl hv), fun v hv => hfits v (hr hv)⟩

theorem leftSorted_fill (l : List Int64) : ∀ (g : Cells Int64), (∀ v ∈ l, FitsInt v) →
    0 ≤ low → low + l.length ≤ 2147483648 → l ≠ [] → low < 2147483647 →
    (LeftSorted (fill g low l) low (low + l.length - 1) ↔
      ∀ s ∈ (pivoting longCmp).leftChain l, s.right.Pairwise fun a b => longCmp a b ≤ 0) := by
  induction l using (pivoting longCmp).induction with
  | nil => exact fun _ _ _ _ h => absurd rfl h
  | single p =>
    intro g hfits hlow hmax _ hint
    have harr := sortable_fill (g := g) hfits hlow hmax
    have hlast : low + (([p] : List Int64).length : ℤ) - 1 = low := by simp
    rw [hlast] at harr ⊢
    refine iff_of_true (.stop (partition_single harr hint) ?_) (by simp)
    exact .single longCmp_comparison _ le_rfl
  | split p x ys ihl _ =>
    intro g hfits hlow hmax _ hint
    have hpart := partitionTo_fill (g := g) hfits hlow hmax
    have hlength := pivoting_length longCmp p x ys
    obtain ⟨hleft, -⟩ := parts_fit hfits
    have habove := pivoting_right longCmp p x ys
    rw [Splitter.leftChain_cons, List.forall_mem_cons]
    generalize (pivoting longCmp).parts p x ys = s at *
    dsimp only at hpart
    rw [List.length_cons, List.length_cons] at hmax hpart ⊢
    have hend : low + ((ys.length + 1 + 1 : ℕ) : ℤ) - 1 =
        low + s.left.length + ([p] ++ s.right).length - 1 := by
      rw [List.length_append, List.length_singleton]
      omega
    -- the cells from the pivot on are sorted if its right side is
    have hright : SortedOn longCmp (fill g low (s.left ++ ([p] ++ s.right)))
        (low + s.left.length) (low + ((ys.length + 1 + 1 : ℕ) : ℤ) - 1) ↔
          s.right.Pairwise fun a b => longCmp a b ≤ 0 := by
      rw [fill_append', hend, sortedOn_fill, List.singleton_append, List.pairwise_cons]
      exact and_iff_right habove
    rw [leftSorted_partition_iff hpart (by omega), hright]
    refine and_congr_right' ?_
    by_cases hnil : s.left = []
    · rw [hnil, Splitter.leftChain_nil]
      exact iff_of_true (fun hlt => absurd hlt (by simp)) (by simp)
    · have hpos := List.length_pos_iff.mpr hnil
      rw [forall_prop_of_true (by omega), fill_append]
      exact ihl _ hleft hlow (by omega) hnil hint

theorem rightEnds_fill (l : List Int64) : ∀ (g : Cells Int64) (low : ℤ), (∀ v ∈ l, FitsInt v) →
    0 ≤ low → low + l.length = 2147483648 →
    (RightEnds toTmp (fill g low l) low 2147483647 ↔
      ∀ s ∈ (pivoting longCmp).rightChain l, s.right ≠ []) := by
  induction l using (pivoting longCmp).induction with
  | nil =>
    intro g low _ _ hmax
    rw [List.length_nil] at hmax
    exact iff_of_true (.done (by omega)) (by simp)
  | single p =>
    intro g low _ _ hmax
    rw [List.length_singleton] at hmax
    exact iff_of_true (.done (by omega)) (by simp)
  | split p x ys _ ihr =>
    intro g low hfits hlow hmax
    have hpart := partitionTo_fill (g := g) hfits hlow hmax.le
    have hlength := pivoting_length longCmp p x ys
    obtain ⟨-, hright⟩ := parts_fit hfits
    rw [Splitter.rightChain_cons, List.forall_mem_cons]
    generalize (pivoting longCmp).parts p x ys = s at *
    rw [List.length_cons, List.length_cons] at hmax hpart
    have hhi : low + ((ys.length + 1 + 1 : ℕ) : ℤ) - 1 = 2147483647 := by omega
    rw [hhi] at hpart
    dsimp only at hpart
    rw [fill_between] at hpart
    have hnext := ihr (fill g low (s.left ++ [p])) (low + s.left.length + 1) hright (by omega)
      (by omega)
    constructor
    · intro h
      cases h with
      | done hle => omega
      | next hlt hpart' hj hends =>
        obtain ⟨rfl, rfl⟩ := hpart.unique hpart'
        refine ⟨fun hnil => ?_, hnext.mp hends⟩
        rw [hnil, List.length_nil] at hlength
        omega
    · rintro ⟨hne, hchain⟩
      have := List.length_pos_iff.mpr hne
      exact .next (by omega) hpart (by omega) (hnext.mpr hchain)

theorem lastPart_fill (hfits : ∀ v ∈ p :: x :: ys, FitsInt v) (hlow : 0 ≤ low)
    (hmax : low + (p :: x :: ys).length = 2147483648) :
    let s := (pivoting longCmp).parts p x ys
    LastPart (fill g low (p :: x :: ys)) low 2147483647 ↔ (s.left ≠ [] → ∃ v ∈ s.right, v ≠ p) := by
  intro s
  have hpart := partitionTo_fill (g := g) hfits hlow hmax.le
  have hlength := pivoting_length longCmp p x ys
  dsimp only at hpart
  change s.left.length + s.right.length = _ at hlength
  change PartitionTo _ _ _ _ (fill g low (s.left ++ ([p] ++ s.right))) (low + s.left.length)
    at hpart
  generalize s = s at *
  have hhi : low + ((p :: x :: ys).length : ℤ) - 1 = 2147483647 := by omega
  rw [hhi] at hpart
  rw [List.length_cons, List.length_cons] at hmax
  have hpivot : fill g low (s.left ++ ([p] ++ s.right)) (low + s.left.length) = some p :=
    fill_get rfl
  have hcell : ∀ i (hi : i < s.right.length),
      fill g low (s.left ++ ([p] ++ s.right)) (low + s.left.length + 1 + i) = some s.right[i] := by
    intro i hi
    rw [fill_between, fill_getElem i hi]
  constructor
  · intro h hne
    have hpos := List.length_pos_iff.mpr hne
    obtain ⟨c, hc, hother⟩ := h rfl _ _ hpart (by omega)
    rw [mem_within] at hc
    rw [hpivot] at hother
    rcases hc.1.eq_or_lt with heq | hlt
    · rw [← heq] at hother
      exact absurd hpivot hother
    · obtain ⟨i, hi⟩ := Int.eq_ofNat_of_zero_le (show 0 ≤ c - (low + s.left.length + 1) by omega)
      obtain rfl : c = low + s.left.length + 1 + i := by omega
      rw [hcell i (by omega)] at hother
      exact ⟨_, List.getElem_mem (by omega), fun heq => hother (congrArg some heq)⟩
  · intro h _ r j hpart' hlt
    obtain ⟨rfl, rfl⟩ := hpart.unique hpart'
    have hne : s.left ≠ [] := by
      intro hnil
      rw [hnil, List.length_nil] at hlt
      omega
    obtain ⟨v, hv, hother⟩ := h hne
    obtain ⟨i, hi, rfl⟩ := List.getElem_of_mem hv
    refine ⟨low + s.left.length + 1 + i, ⟨by omega, by omega⟩, ?_⟩
    rw [hcell i hi, hpivot]
    exact fun heq => hother (Option.some.inj heq)

/-! ### Both versions -/

/-- Both versions end, and leave the same array. -/
def VersionsAgree (arr : Cells Int64) (low hi : ℤ) : Prop :=
  ∃ r B, ∀ k n, B < k → B < n →
    quickSortNonRecursive k n arr low hi = some r ∧ quicksort k n arr low hi = some r

/-- Along the left sides of the splits, what is right of the pivot is sorted; and where the range
ends at the largest `int`, no right side along the right sides is empty, and the first one, unless
there is nothing on the left, has a value other than the pivot. -/
structure QueueSorts (l : List Int64) (hi : ℤ) : Prop where
  sorted : ∀ s ∈ (pivoting longCmp).leftChain l, s.right.Pairwise fun a b => longCmp a b ≤ 0
  ends : hi = 2147483647 → ∀ s ∈ (pivoting longCmp).rightChain l, s.right ≠ []
  other : hi = 2147483647 → ∀ p x ys, l = p :: x :: ys →
    ((pivoting longCmp).parts p x ys).left ≠ [] →
      ∃ v ∈ ((pivoting longCmp).parts p x ys).right, v ≠ p

/-- The same of the partitions of both versions. -/
theorem queueSorts_iff (hfits : ∀ v ∈ l, FitsInt v) (hlow : 0 ≤ low) (hlen : 2 ≤ l.length)
    (hhi : low + l.length - 1 = hi) (hmax : hi ≤ 2147483647) :
    QueueSorts l hi ↔ LeftSorted (fill g low l) low hi ∧
      RightEnds toTmp (fill g low l) low hi ∧ LastPart (fill g low l) low hi := by
  have hleft := leftSorted_fill l g hfits hlow (by omega) (by rintro rfl; simp at hlen)
    (by omega)
  rw [hhi] at hleft
  rcases hmax.eq_or_lt with rfl | hlt
  · have hright := rightEnds_fill l g low hfits hlow (by omega)
    match l, hlen with
    | p :: x :: ys, _ =>
      have hlast := lastPart_fill (g := g) hfits hlow (by omega)
      dsimp only at hlast
      rw [hleft, hright, hlast]
      constructor
      · rintro ⟨hsorted, hends, hother⟩
        exact ⟨hsorted, hends rfl, hother rfl p x ys rfl⟩
      · rintro ⟨hsorted, hends, hother⟩
        refine ⟨hsorted, fun _ => hends, fun _ p' x' ys' heq => ?_⟩
        cases heq
        exact hother
  · have harr := sortable_fill (g := g) hfits hlow (by omega)
    rw [hhi] at harr
    rw [hleft]
    constructor
    · rintro ⟨hsorted, -, -⟩
      exact ⟨hsorted, rightEnds_of_lt harr hlt, fun h => absurd h hlt.ne⟩
    · rintro ⟨hsorted, -, -⟩
      exact ⟨hsorted, fun h => absurd h hlt.ne, fun h => absurd h hlt.ne⟩

theorem versionsAgree_single (hle : hi ≤ low) : VersionsAgree arr low hi := by
  refine ⟨arr, 0, fun k n _ hn => ⟨if_pos hle, ?_⟩⟩
  obtain ⟨n, rfl⟩ : ∃ m, n = m + 1 := ⟨n - 1, by omega⟩
  rw [quicksort, quicksortBy, if_neg (by omega)]

/-- The partitions decide whether the versions agree. -/
theorem versionsAgree_iff (harr : Sortable toTmp arr low hi) (hlt : low < hi) :
    VersionsAgree arr low hi ↔
      LeftSorted arr low hi ∧ RightEnds toTmp arr low hi ∧ LastPart arr low hi := by
  have hle := hlt.le
  have hmax := harr.hi_le
  obtain ⟨last, hchain⟩ := leftChain_total harr hle (by omega)
  have hsorted_iff := leftSorted_iff harr hle (by omega) hchain
  constructor
  · rintro ⟨r, B, hrun⟩
    obtain ⟨hqueue, hquick⟩ := hrun (B + (hi - low + 1).toNat + 1) (B + (hi - low + 1).toNat + 1)
      (by omega) (by omega)
    have hends := rightEnds_of_run harr hquick
    have hlastPart := lastPart_of_run harr hlt (by omega) hqueue
    obtain ⟨B', hchainRun⟩ := queue_run harr hlt hchain hlastPart
    obtain ⟨r', hspec, -, hsorted⟩ := quicksortBy_spec harr hends
    have hr' : quicksort _ _ arr low hi = some r' :=
      hspec (B + (hi - low + 1).toNat + 1) (B + (hi - low + 1).toNat + 1) (by omega) (by omega)
    rw [hquick] at hr'
    cases hr'
    have hmore := (hrun (B + B' + 1) (B + B' + 1) (by omega) (by omega)).1
    rw [hchainRun _ _ (by omega) (by omega)] at hmore
    cases hmore
    exact ⟨hsorted_iff.mpr hsorted, hends, hlastPart⟩
  · rintro ⟨hleft, hends, hlastPart⟩
    obtain ⟨B, hqueue⟩ := queue_run harr hlt hchain hlastPart
    obtain ⟨r, hspec, hperm, hsorted⟩ := quicksortBy_spec harr hends
    have hperm' := hchain.permuted harr hle (by omega)
    have hsame : r = last :=
      sorted_unique (harr.permuted hperm').filled (hperm'.symm.trans hperm)
        (hsorted_iff.mp hleft) hsorted
    subst hsame
    refine ⟨r, B + (hi - low + 1).toNat, fun k n hk hn => ⟨hqueue k n (by omega) (by omega), ?_⟩⟩
    exact hspec k n (by omega) (by omega)

/-- The queue agrees with the recursion exactly for single cells, and where the splits of the first
segment leave the rest sorted (and, at the end of the `int`s, no index overflows). -/
theorem queue_agrees_iff {arr : Cells Int64} {low hi : ℤ} (hlow : 0 ≤ low) (hle : low ≤ hi)
    (hmax : hi ≤ 2147483647) (hfilled : Filled arr low hi) (hfits : Among arr low hi FitsInt) :
    VersionsAgree arr low hi ↔ (low < hi → QueueSorts (cellsOf arr low hi) hi) := by
  have harr := sortable_of_fits hlow hmax hfilled hfits
  rcases hle.eq_or_lt with rfl | hlt
  · exact iff_of_true (versionsAgree_single le_rfl) fun h => absurd h (lt_irrefl _)
  have hlength : (cellsOf arr low hi).length = (hi - low + 1).toNat := by
    rw [cellsOf, List.length_map, List.length_range]
  have hsorts := queueSorts_iff (g := arr) (cellsOf_fits hfilled hfits) hlow (by omega)
    (show low + ((cellsOf arr low hi).length : ℤ) - 1 = hi by omega) hmax
  rw [fill_cellsOf hfilled] at hsorts
  rw [versionsAgree_iff harr hlt, hsorts]
  exact ⟨fun h _ => h, fun h => h hlt⟩

/-- The parts of 2, 3, 1 around its first value are pushed, and sorted already. -/
theorem queue_agrees_sample : VersionsAgree (ofList [2, 3, 1]) 0 2 := by
  have hvalues : ∀ v ∈ ([2, 3, 1] : List Int64), FitsInt v := by
    intro v hv
    simp only [List.mem_cons, List.not_mem_nil, or_false] at hv
    rcases hv with rfl | rfl | rfl <;> decide
  have harr : Sortable toTmp (ofList [2, 3, 1]) 0 2 := by
    rw [ofList_eq_fill]
    exact sortable_fill hvalues le_rfl (by decide)
  refine (queue_agrees_iff le_rfl (by decide) (by decide) harr.filled fun c hc v hv =>
    (toTmp_eq_iff v).mp (harr.saved c hc v hv)).mpr fun _ => ⟨?_, ?_, ?_⟩
  · decide +kernel
  · exact fun h => absurd h (by decide)
  · exact fun h => absurd h (by decide)

/-- The partition of 1, 3, 2 returns its first index, and nothing is pushed. -/
theorem queue_stops_early : ¬ VersionsAgree (ofList [1, 3, 2]) 0 2 := by
  rintro ⟨r, B, hrun⟩
  have hsave : ∀ v ∈ ([1, 3, 2] : List Int64), toTmp v = some v := by
    intro v hv
    simp only [List.mem_cons, List.not_mem_nil, or_false] at hv
    rcases hv with rfl | rfl | rfl <;> rfl
  have harr : Sortable toTmp (ofList [1, 3, 2]) 0 2 := sortable_ofList hsave (by decide)
  have hleast : LeastFirst (ofList [1, 3, 2]) 0 2 := by
    intro p hp c hc x hx
    cases hp
    have hcases : c = 0 ∨ c = 1 ∨ c = 2 := by
      rw [mem_within] at hc
      omega
    rcases hcases with rfl | rfl | rfl <;> cases hx <;> decide
  have hchain : LeftChain (ofList [1, 3, 2]) 0 2 (ofList [1, 3, 2]) :=
    .stop (partition_leastFirst harr (by decide) hleast)
  obtain ⟨B', hqueue⟩ := queue_run harr (by decide) hchain fun hend =>
    absurd hend (by decide)
  have hsecond : (quicksort 3 4 (ofList [1, 3, 2]) 0 2).map (fun arr => arr 1) = some (some 2) := by
    decide +kernel
  obtain ⟨r', hquick, hr'⟩ := Option.map_eq_some_iff.mp hsecond
  have hboth := hrun (B + B' + 4) (B + B' + 4) (by omega) (by omega)
  have hmore : quicksort (B + B' + 4) (B + B' + 4) (ofList [1, 3, 2]) 0 2 = some r' :=
    quicksortBy_mono (savesAs_refl toTmp) (by omega) (by omega) hquick
  rw [hqueue _ _ (by omega) (by omega), hmore] at hboth
  obtain ⟨hlast, hfirst⟩ := hboth
  rw [← hfirst] at hlast
  cases hlast
  cases hr'

end MemoryLeak.Standalone
