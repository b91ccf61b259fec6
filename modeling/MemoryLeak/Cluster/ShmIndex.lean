import MemoryLeak.Cluster.QuickSort
import MemoryLeak.Cluster.ShmRows
import MemoryLeak.SlotIndex
import Mathlib.Algebra.Order.Ring.Int
import Mathlib.Tactic.Ring

/-!
# The indexes in shared memory

`lcs_shm_load` and `lcs_shm_write` with the lookup of agents, `lcs_audd_shmload` and
`lcs_audd_shmwrite` with that of auto dial details. Memory outside of the segments and of the
columns is not modelled: a bucket with a negative number, a segment that is too small and a row
that does not fit have no outcome.
-/
namespace MemoryLeak.Cluster
open MemoryLeak.CBytes MemoryLeak.CText MemoryLeak.SlotIndex

abbrev lcsAgentsHashArrN : ℕ := 4
abbrev lcsAuddHashArrN : ℕ := 2

/-! ### Segments -/

/-- What `lcs_create_shmagent` and `lcs_create_shmaudd` meet: a key that is there already or is not
opened, a segment that is not mapped, or a new one. -/
inductive ShmOpen
  | refused
  | unmapped
  | mapped

/-- The segments of the count and of the cells. -/
structure Segments where
  num : ShmOpen
  data : ShmOpen

/-- `lcs_create_shmagent(key, sz, err)` and `lcs_create_shmaudd`: whether there is a pointer, of
which `used` bytes are written. `MAP_FAILED` is cleared as a segment is. -/
def lcsCreateShm (o : ShmOpen) (sz used : ℤ) : Option Bool :=
  match o with
  | .refused => some false
  | .unmapped => none
  | .mapped => if used ≤ sz then some true else none

/-- The sizes of `LCS_AGENTS_SHARED`, `LCS_AGENTS_SHARED_AH`, `LCS_AUDD_SHARED` and
`LCS_AUDD_SHARED_AUH`. -/
abbrev sizeofAgents : ℕ := 16
abbrev sizeofAh : ℕ := 2224
abbrev sizeofAudd : ℕ := 8
abbrev sizeofAuh : ℕ := 360

/-- `sz = (n + 1) * sizeof(..)`, the product being a `size_t` and `sz` an `int`. -/
def shmSz (n : ℤ) (size : ℕ) : Option ℤ := (intOf (n + 1)).map fun m : ℤ =>
  (m * size).bmod 4294967296

/-- The cells of `n` rows lie in their segment exactly when the size is an `int`. -/
theorem shmSz_iff {n size : ℕ} (hn : 0 < n) (hsize : 0 < size) (hlt : size < 4294967296) :
    (∃ sz, shmSz n size = some sz ∧ ((n * size : ℕ) : ℤ) ≤ sz) ↔
      (n + 1) * size < 2147483648 := by
  have hmul : (n + 1) * size = n * size + size := Nat.succ_mul n size
  have hpos : n ≤ n * size := Nat.le_mul_of_pos_right n hsize
  have hcast : ((n : ℤ) + 1) * size = ((n * size : ℕ) : ℤ) + size := by
    push_cast
    ring
  constructor
  · rintro ⟨sz, hsz, hle⟩
    obtain ⟨m, hm, rfl⟩ := Option.map_eq_some_iff.mp hsz
    rw [intOf] at hm
    split_ifs at hm
    cases hm
    rw [hcast] at hle
    -- a size that is reduced is less than the cells
    rw [Int.bmod_def] at hle
    split_ifs at hle <;> omega
  · intro h
    refine ⟨_, by rw [shmSz, intOf_eq (by omega) (by omega), Option.map_some], ?_⟩
    rw [hcast, Int.bmod_eq_of_le (by omega) (by omega)]
    omega

/-! ### The program -/

/-- `*index` after `lcs_comm_hash(p, len, index, sz)`, where a text without a number leaves
`*index` to be divided. -/
def lcsCommHash (p : Bytes) (index : BitVec 32) (sz : ℤ) : Option ℤ :=
  (scanData index p).map fun v => v.toInt.tmod sz

/-- `lcs_comm_hash_audd(val, sz)`. -/
def lcsCommHashAudd (val : UInt64) (sz : ℕ) : ℤ := (val.toNat % sz : ℕ)

/-- The enabled rows of `agents`, the number being their key. -/
structure AgentsTable where
  rows : List AgentRow
  key : (rows.map fun row => row.number).Nodup

/-- The rows of `auto_dial_detail`, the id being their key. -/
structure AuddTable where
  rows : List AuddRow
  key : (rows.map AuddRow.id).Nodup

/-- The bucket of an agent, `agent_number` being the text that is hashed. -/
def indexAgent (n : ℤ) (s : Index ℤ LcsMmapAgents) (a : LcsMmapAgents) :
    Option (Index ℤ LcsMmapAgents) := do
  let index ← lcsCommHash a.agentNumber.bytes 0 n
  if index < 0 then none else some (insert s index a)

def lcsShmWrite (n : ℤ) (s : Index ℤ LcsMmapAgents) (row : AgentRow) :
    Option (Index ℤ LcsMmapAgents) := do
  let a ← readAgent row
  indexAgent n s a

/-- `lcs_shm_load` and `lcs_audd_shmload` for `rows` rows, with the sizes of their structures:
what `run` leaves, if the program comes so far. The pointer to the count is tested, that to the
cells only where `tested` says so; otherwise a null pointer is used. -/
def shmLoad {σ : Type} (numSize size : ℕ) (tested : Bool) (shm : Segments) (rows : ℕ)
    (run : Option σ) : Option (Option σ) := do
  let n ← intOf rows
  if n = 0 then some none
  else
    let num ← lcsCreateShm shm.num numSize numSize
    if num = false then some none
    else
      let sz ← shmSz n size
      let data ← lcsCreateShm shm.data sz (rows * size : ℕ)
      if data = false then if tested then some none else none
      else run.map some

def lcsShmLoad (shm : Segments) (rows : List AgentRow) : Option (Option (Index ℤ LcsMmapAgents)) :=
  shmLoad sizeofAgents sizeofAh true shm rows.length
    (rows.foldlM (lcsShmWrite rows.length) (empty lcsAgentsHashArrN))

/-- The search of `lcs_exec_cbtrue` for an agent: `strcmp` finds texts that are the same. -/
def agentLookup (n : ℤ) (s : Index ℤ LcsMmapAgents) (val : Bytes) :
    Option (Option LcsMmapAgents) := do
  let h ← lcsCommHash val (-1) n
  if -1 < h then some (probe (fun a => a.agentNumber.bytes) s.rows val (s.slots h)) else some none

def indexAudd (n : ℕ) (s : Index ℤ LcsMmapAutoDialDetail) (d : LcsMmapAutoDialDetail) :
    Index ℤ LcsMmapAutoDialDetail :=
  insert s (lcsCommHashAudd d.id n) d

def lcsAuddShmwrite (n : ℕ) (s : Index ℤ LcsMmapAutoDialDetail) (row : AuddRow) :
    Option (Index ℤ LcsMmapAutoDialDetail) := do
  let d ← readAudd row
  some (indexAudd n s d)

def lcsAuddShmload (shm : Segments) (rows : List AuddRow) :
    Option (Option (Index ℤ LcsMmapAutoDialDetail)) :=
  shmLoad sizeofAudd sizeofAuh false shm rows.length
    (rows.foldlM (lcsAuddShmwrite rows.length) (empty lcsAuddHashArrN))

/-- The index that details leave in the segment. -/
def auddIndex (audd : List LcsMmapAutoDialDetail) : Index ℤ LcsMmapAutoDialDetail :=
  audd.foldl (indexAudd audd.length) (empty lcsAuddHashArrN)

/-- The search of `lcs_exec_cbtrue` for an auto dial detail. -/
def auddLookup (n : ℕ) (s : Index ℤ LcsMmapAutoDialDetail) (u : UInt64) :
    Option LcsMmapAutoDialDetail :=
  let h := lcsCommHashAudd u n
  if -1 < h then probe LcsMmapAutoDialDetail.id s.rows u (s.slots h) else none

/-! ### Loading -/

/-- The rows can be counted; where the program comes to the cells these are there, and `indexable`
holds; where the cells are refused, this is tested. -/
def Loadable (size : ℕ) (tested : Bool) (shm : Segments) (rows : ℕ) (indexable : Prop) : Prop :=
  rows ≤ 2147483647 ∧ (rows ≠ 0 → shm.num ≠ .refused → shm.num = .mapped ∧ rows < 2147483647 ∧
    (shm.data = .refused ∧ tested = true ∨
      shm.data = .mapped ∧ (rows + 1) * size < 2147483648 ∧ indexable))

/-- What the program does where the count is mapped: the cells follow. -/
theorem shmLoad_mapped {σ : Type} {numSize size : ℕ} {tested : Bool} {shm : Segments} {rows : ℕ}
    {run : Option σ} (hle : rows ≤ 2147483647) (hzero : rows ≠ 0) (hnum : shm.num = .mapped) :
    shmLoad numSize size tested shm rows run = (shmSz rows size).bind fun sz =>
      (lcsCreateShm shm.data sz (rows * size : ℕ)).bind fun data =>
        if data = false then if tested then some none else none else run.map some := by
  have hne : ¬ (rows : ℤ) = 0 := by omega
  have hcreate : lcsCreateShm .mapped (numSize : ℤ) numSize = some true := if_pos (le_refl _)
  have hcount : intOf rows = some (rows : ℤ) := intOf_eq (by omega) (by omega)
  simp only [shmLoad, hcount, hnum, hcreate, bind, Option.bind_some, if_neg hne,
    Bool.true_eq_false, if_false]

/-- A load comes to an end, with an index that has a property if with one, exactly when the rows can
be loaded and an index is left that has it. -/
theorem shmLoad_iff {σ : Type} {numSize size : ℕ} {tested : Bool} {shm : Segments} {rows : ℕ}
    {run : Option σ} (hsize : 0 < size) (hlt : size < 4294967296) (P : σ → Prop) :
    (∃ r, shmLoad numSize size tested shm rows run = some r ∧ ∀ s ∈ r, P s) ↔
      Loadable size tested shm rows (∃ s, run = some s ∧ P s) := by
  by_cases hcount : rows ≤ 2147483647
  · rw [Loadable, and_iff_right hcount]
    by_cases hzero : rows = 0
    · have hend : shmLoad numSize size tested shm rows run = some none := by
        rw [hzero]
        rfl
      exact iff_of_true ⟨none, hend, by simp⟩ fun hne => absurd hzero hne
    · rw [forall_prop_of_true hzero]
      cases hnum : shm.num with
      | refused =>
        have hend : shmLoad numSize size tested shm rows run = some none := by
          rw [shmLoad, intOf_eq (by omega) (by omega), hnum]
          exact if_neg (by omega)
        exact iff_of_true ⟨none, hend, by simp⟩ fun hne => absurd rfl hne
      | unmapped =>
        have hend : shmLoad numSize size tested shm rows run = none := by
          rw [shmLoad, intOf_eq (by omega) (by omega), hnum]
          exact if_neg (by omega)
        rw [hend]
        exact iff_of_false (fun ⟨_, h, _⟩ => nomatch h) fun h => nomatch (h (by simp)).1
      | mapped =>
        rw [shmLoad_mapped hcount hzero hnum, forall_prop_of_true (by simp), and_iff_right rfl]
        have hroom := shmSz_iff (Nat.pos_of_ne_zero hzero) hsize hlt
        by_cases hmax : rows < 2147483647
        · obtain ⟨sz, hsz⟩ : ∃ sz, shmSz rows size = some sz := by
            rw [shmSz, intOf_eq (by omega) (by omega)]
            exact ⟨_, rfl⟩
          have hfits : (rows * size : ℕ) ≤ sz ↔ (rows + 1) * size < 2147483648 := by
            rw [← hroom, hsz]
            simp
          rw [and_iff_right hmax, hsz, Option.bind_some, ← hfits]
          generalize ((rows * size : ℕ) : ℤ) = used
          cases hdata : shm.data with
          | refused => cases tested <;> simp [lcsCreateShm]
          | unmapped => simp [lcsCreateShm]
          | mapped =>
            by_cases hle : used ≤ sz
            · simp [lcsCreateShm, hle]
            · simp [lcsCreateShm, hle]
        · have hnone : shmSz rows size = none := by
            rw [shmSz, intOf, if_neg (by omega)]
            rfl
          rw [hnone]
          exact iff_of_false (fun ⟨_, h, _⟩ => nomatch h) fun h => hmax h.1
  · have hnone : shmLoad numSize size tested shm rows run = none := by
      rw [shmLoad, intOf, if_neg (by omega)]
      rfl
    rw [hnone, Loadable]
    exact iff_of_false (fun ⟨_, h, _⟩ => nomatch h) fun h => hcount h.1

/-! ### Agents -/

/-- The number at the start of an agent's number is an `int` and does not lie in a bucket before
the first; without one, the row is put in the first bucket. -/
def Writable (n : ℤ) (p : Bytes) : Prop :=
  ∀ v, scanD p = some v → -2 ^ 31 ≤ v ∧ v < 2 ^ 31 ∧ 0 ≤ v.tmod n

/-- The bucket in which a row is put. -/
def agentBucket (n : ℤ) (p : Bytes) : ℤ := ((scanD p).getD 0).tmod n

theorem lcsCommHash_noNumber {p : Bytes} (h : scanD p = none) (index : BitVec 32) (sz : ℤ) :
    lcsCommHash p index sz = some (index.toInt.tmod sz) := by
  simp only [lcsCommHash, scanData, h, Option.map_some]

theorem lcsCommHash_number {p : Bytes} {v : ℤ} (h : scanD p = some v)
    (hrange : -2 ^ 31 ≤ v ∧ v < 2 ^ 31) (index : BitVec 32) (sz : ℤ) :
    lcsCommHash p index sz = some (v.tmod sz) := by
  simp only [lcsCommHash, scanData, h, if_pos hrange, Option.map_some]
  rw [BitVec.toInt_ofInt, Int.bmod_eq_of_le (by omega) (by omega)]

/-- An agent is indexed exactly when its number is writable, and then in its bucket. -/
theorem indexAgent_eq_some_iff {n : ℤ} {s s' : Index ℤ LcsMmapAgents} {a : LcsMmapAgents} :
    indexAgent n s a = some s' ↔
      Writable n a.agentNumber.bytes ∧ insert s (agentBucket n a.agentNumber.bytes) a = s' := by
  cases hscan : scanD a.agentNumber.bytes with
  | none =>
    have hbucket : agentBucket n a.agentNumber.bytes = 0 := by simp [agentBucket, hscan]
    have hwritable : Writable n a.agentNumber.bytes := fun v hv => by
      rw [hscan] at hv
      cases hv
    have hzero : (0 : BitVec 32).toInt.tmod n = 0 := by simp
    rw [indexAgent, lcsCommHash_noNumber hscan, hzero, hbucket]
    simp [hwritable]
  | some v =>
    have hbucket : agentBucket n a.agentNumber.bytes = v.tmod n := by simp [agentBucket, hscan]
    have hwritable : Writable n a.agentNumber.bytes ↔
        (-2 ^ 31 ≤ v ∧ v < 2 ^ 31) ∧ ¬ v.tmod n < 0 := by
      simp only [Writable, hscan, Option.some.injEq, forall_eq', not_lt, and_assoc]
    rw [hwritable, hbucket]
    by_cases hrange : -2 ^ 31 ≤ v ∧ v < 2 ^ 31
    · rw [indexAgent, lcsCommHash_number hscan hrange]
      simp only [bind, Option.bind_some]
      split_ifs with hneg
      · simp [hneg]
      · simp only [hrange, hneg, not_false_eq_true, and_self, true_and, Option.some.injEq]
    · have hnone : lcsCommHash a.agentNumber.bytes 0 n = none := by
        simp only [lcsCommHash, scanData, hscan, if_neg hrange, Option.map_none]
      simp only [indexAgent, hnone, bind, Option.bind_none, reduceCtorEq, hrange, false_and]

theorem foldlM_indexAgent {n : ℤ} (agents : List LcsMmapAgents) {s s' : Index ℤ LcsMmapAgents} :
    agents.foldlM (indexAgent n) s = some s' ↔
      (∀ a ∈ agents, Writable n a.agentNumber.bytes) ∧
        agents.foldl (fun s a => insert s (agentBucket n a.agentNumber.bytes) a) s = s' := by
  induction agents generalizing s with
  | nil => simp
  | cons a agents ih =>
    rw [List.foldlM_cons, List.foldl_cons, List.forall_mem_cons]
    constructor
    · intro h
      obtain ⟨s₁, hwrite, hrest⟩ := Option.bind_eq_some_iff.mp h
      obtain ⟨ha, rfl⟩ := indexAgent_eq_some_iff.mp hwrite
      obtain ⟨hagents, hfold⟩ := ih.mp hrest
      exact ⟨⟨ha, hagents⟩, hfold⟩
    · rintro ⟨⟨ha, hagents⟩, hfold⟩
      exact Option.bind_eq_some_iff.mpr
        ⟨_, indexAgent_eq_some_iff.mpr ⟨ha, rfl⟩, ih.mpr ⟨hagents, hfold⟩⟩

/-- The lookup probes a row's own bucket, except for a text without a number where there are
other buckets than the first: -1 is then no bucket. -/
theorem agentLookup_eq {n : ℕ} (hn : 0 < n) (s : Index ℤ LcsMmapAgents) {p : Bytes}
    (hp : Writable n p) : agentLookup n s p =
      if scanD p = none ∧ n ≠ 1 then some none
      else some (probe (fun a => a.agentNumber.bytes) s.rows p (s.slots (agentBucket n p))) := by
  cases hscan : scanD p with
  | none =>
    have hminus : (-1 : BitVec 32).toInt = -1 := rfl
    rw [agentLookup, lcsCommHash_noNumber hscan, hminus]
    by_cases h1 : n = 1
    · subst h1
      simp [agentBucket, hscan, Int.tmod_one]
    · have hmod : (-1 : ℤ).tmod n = -1 := by
        rw [Int.neg_tmod, Int.tmod_eq_of_lt (by omega) (by omega)]
      simp [hmod, h1]
  | some v =>
    obtain ⟨hlow, hhigh, hmod⟩ := hp v hscan
    have hbucket : agentBucket n p = v.tmod n := by simp [agentBucket, hscan]
    have hlt : -1 < v.tmod n := by omega
    rw [agentLookup, lcsCommHash_number hscan ⟨hlow, hhigh⟩, hbucket]
    simp [hlt]

/-- Every number starts with an `int` whose bucket is no negative one (or there is a single agent,
whose number starts with none), and no bucket has more than four. -/
def AgentsFound (n : ℕ) (numbers : List Bytes) : Prop :=
  (∀ p ∈ numbers, Writable n p ∧ (scanD p = none → n = 1)) ∧
  ∀ p ∈ numbers, numbers.countP (fun x => agentBucket n x = agentBucket n p) ≤ lcsAgentsHashArrN

/-- Agents with different numbers are all found exactly when the numbers allow it. -/
theorem indexAgents_complete_iff {agents : List LcsMmapAgents}
    (hkeys : (agents.map fun a => a.agentNumber.bytes).Nodup) :
    (∃ s, agents.foldlM (indexAgent agents.length) (empty lcsAgentsHashArrN) = some s ∧
      ∀ a ∈ agents, agentLookup agents.length s a.agentNumber.bytes = some (some a)) ↔
    AgentsFound agents.length (agents.map fun a => a.agentNumber.bytes) := by
  have hload : ∀ s, agents.foldlM (indexAgent agents.length) (empty lcsAgentsHashArrN) = some s ↔
      (∀ a ∈ agents, Writable agents.length a.agentNumber.bytes) ∧
        load lcsAgentsHashArrN (fun a => agentBucket agents.length a.agentNumber.bytes) agents =
          s :=
    fun s => foldlM_indexAgent agents
  have hfound : ∀ s, ∀ a ∈ agents, Writable agents.length a.agentNumber.bytes →
      (agentLookup agents.length s a.agentNumber.bytes = some (some a) ↔
        (scanD a.agentNumber.bytes = none → agents.length = 1) ∧
          probe (fun a => a.agentNumber.bytes) s.rows a.agentNumber.bytes
            (s.slots (agentBucket agents.length a.agentNumber.bytes)) = some a) := by
    intro s a ha hwritable
    rw [agentLookup_eq (List.length_pos_of_mem ha) _ hwritable]
    by_cases h : scanD a.agentNumber.bytes = none ∧ agents.length ≠ 1
    · simp [h]
    · rw [if_neg h, Option.some.injEq]
      exact (and_iff_right fun hnone => not_not.mp fun h1 => h ⟨hnone, h1⟩).symm
  simp only [AgentsFound, List.forall_mem_map, List.countP_map, Function.comp_def, hload]
  rw [← probe_load_iff lcsAgentsHashArrN (fun a => agentBucket agents.length a.agentNumber.bytes)
    hkeys]
  constructor
  · rintro ⟨_, ⟨hwritable, rfl⟩, hlookup⟩
    have hboth := fun a ha => (hfound _ a ha (hwritable a ha)).mp (hlookup a ha)
    exact ⟨fun a ha => ⟨hwritable a ha, (hboth a ha).1⟩, fun a ha => (hboth a ha).2⟩
  · rintro ⟨hrows, hprobe⟩
    exact ⟨_, ⟨fun a ha => (hrows a ha).1, rfl⟩, fun a ha =>
      (hfound _ a ha (hrows a ha).1).mpr ⟨(hrows a ha).2, hprobe a ha⟩⟩

/-- The search for the number of each row finds the row. -/
def FindsAgents (rows : List AgentRow) (s : Index ℤ LcsMmapAgents) : Prop :=
  ∀ row ∈ rows, ∃ number a, row.number = some number ∧ readAgent row = some a ∧
    agentLookup rows.length s number = some (some a)

theorem lcsShmWrite_complete_iff (agents : AgentsTable) :
    (∃ s, agents.rows.foldlM (lcsShmWrite agents.rows.length) (empty lcsAgentsHashArrN) = some s ∧
      FindsAgents agents.rows s) ↔
    (∀ row ∈ agents.rows, AgentFits row) ∧
      AgentsFound agents.rows.length (agents.rows.filterMap fun row => row.number) := by
  have hfits : (∀ row ∈ agents.rows, AgentFits row) ↔
      ∃ as : List LcsMmapAgents, agents.rows.map readAgent = as.map some := by
    simp only [exists_map_read, readAgent_fits]
  have hkey : ∀ row a, readAgent row = some a → row.number = some a.agentNumber.bytes :=
    fun _ _ => readAgent_number
  have hnodup : ∀ as : List LcsMmapAgents, agents.rows.map readAgent = as.map some →
      (as.map fun a => a.agentNumber.bytes).Nodup := fun as has =>
    (map_key has hkey ▸ agents.key).of_map
  rw [hfits]
  constructor
  · rintro ⟨s, hrun, hfinds⟩
    obtain ⟨as, has, hfold⟩ := (foldlM_read _).mp hrun
    rw [FindsAgents, forall_mem_key has hkey] at hfinds
    rw [length_read has] at hfold hfinds ⊢
    rw [filterMap_key has hkey]
    exact ⟨⟨as, has⟩, (indexAgents_complete_iff (hnodup as has)).mp ⟨s, hfold, hfinds⟩⟩
  · rintro ⟨⟨as, has⟩, hcond⟩
    rw [filterMap_key has hkey, length_read has] at hcond
    obtain ⟨s, hfold, hall⟩ := (indexAgents_complete_iff (hnodup as has)).mpr hcond
    rw [← length_read has] at hfold hall
    exact ⟨s, (foldlM_read _).mpr ⟨as, has, hfold⟩, (forall_mem_key has hkey).mpr hall⟩

/-- The program comes to an end, and an index that it leaves is complete. -/
def AgentsComplete (shm : Segments) (rows : List AgentRow) : Prop :=
  ∃ r, lcsShmLoad shm rows = some r ∧ ∀ s ∈ r, FindsAgents rows s

theorem agents_complete_iff (shm : Segments) (agents : AgentsTable) :
    AgentsComplete shm agents.rows ↔ Loadable sizeofAh true shm agents.rows.length
      ((∀ row ∈ agents.rows, AgentFits row) ∧
        AgentsFound agents.rows.length (agents.rows.filterMap fun row => row.number)) := by
  rw [← lcsShmWrite_complete_iff]
  exact shmLoad_iff (by decide) (by decide) _

/-! ### Auto dial details -/

theorem auddIndex_eq (audd : List LcsMmapAutoDialDetail) :
    auddIndex audd = load lcsAuddHashArrN (fun d => lcsCommHashAudd d.id audd.length) audd := rfl

/-- No remainder is shared by more than two ids. -/
def AuddFound (n : ℕ) (ids : List UInt64) : Prop :=
  ∀ u ∈ ids, ids.countP (fun x => x.toNat % n = u.toNat % n) ≤ lcsAuddHashArrN

/-- Details with different ids are all found exactly when no bucket has more than two. -/
theorem auddIndex_complete_iff {audd : List LcsMmapAutoDialDetail}
    (hkeys : (audd.map LcsMmapAutoDialDetail.id).Nodup) :
    (∀ d ∈ audd, auddLookup audd.length (auddIndex audd) d.id = some d) ↔
    AuddFound audd.length (audd.map LcsMmapAutoDialDetail.id) := by
  have hbucket : ∀ u : UInt64, -1 < lcsCommHashAudd u audd.length := fun u => by
    rw [lcsCommHashAudd]
    omega
  simp only [auddLookup, if_pos (hbucket _), auddIndex_eq]
  rw [probe_load_iff lcsAuddHashArrN _ hkeys]
  simp only [AuddFound, List.forall_mem_map, List.countP_map, Function.comp_def, lcsCommHashAudd,
    Int.natCast_inj]

/-- The search for the id of each row finds the row. -/
def FindsAudd (rows : List AuddRow) (s : Index ℤ LcsMmapAutoDialDetail) : Prop :=
  ∀ row ∈ rows, ∃ u d, AuddRow.id row = some u ∧ readAudd row = some d ∧
    auddLookup rows.length s u = some d

theorem lcsAuddShmwrite_complete_iff (audd : AuddTable) :
    (∃ s, audd.rows.foldlM (lcsAuddShmwrite audd.rows.length) (empty lcsAuddHashArrN) = some s ∧
      FindsAudd audd.rows s) ↔
    (∀ row ∈ audd.rows, AuddFits row) ∧
      AuddFound audd.rows.length (audd.rows.filterMap AuddRow.id) := by
  have hfits : (∀ row ∈ audd.rows, AuddFits row) ↔
      ∃ ds : List LcsMmapAutoDialDetail, audd.rows.map readAudd = ds.map some := by
    simp only [exists_map_read, readAudd_fits]
  have hkey : ∀ row d, readAudd row = some d → AuddRow.id row = some d.id := fun _ _ => readAudd_id
  have hnodup : ∀ ds : List LcsMmapAutoDialDetail, audd.rows.map readAudd = ds.map some →
      (ds.map LcsMmapAutoDialDetail.id).Nodup := fun ds hds =>
    (map_key hds hkey ▸ audd.key).of_map
  -- details that are read are put in the index without fail
  have hpure : ∀ (n : ℕ) (ds : List LcsMmapAutoDialDetail) s,
      ds.foldlM (fun s d => some (indexAudd n s d)) s = some (ds.foldl (indexAudd n) s) :=
    fun n ds s => List.foldlM_pure
  rw [hfits]
  constructor
  · rintro ⟨s, hrun, hfinds⟩
    obtain ⟨ds, hds, hfold⟩ := (foldlM_read _).mp hrun
    rw [hpure, length_read hds] at hfold
    cases hfold
    rw [FindsAudd, forall_mem_key hds hkey, length_read hds] at hfinds
    rw [filterMap_key hds hkey, length_read hds]
    exact ⟨⟨ds, hds⟩, (auddIndex_complete_iff (hnodup ds hds)).mp hfinds⟩
  · rintro ⟨⟨ds, hds⟩, hcond⟩
    rw [filterMap_key hds hkey, length_read hds] at hcond
    have hall := (auddIndex_complete_iff (hnodup ds hds)).mpr hcond
    refine ⟨auddIndex ds, (foldlM_read _).mpr ⟨ds, hds, ?_⟩, (forall_mem_key hds hkey).mpr ?_⟩
    · rw [hpure, length_read hds]
      rfl
    · rwa [length_read hds]

/-- The program comes to an end, and an index that it leaves is complete. -/
def AuddComplete (shm : Segments) (rows : List AuddRow) : Prop :=
  ∃ r, lcsAuddShmload shm rows = some r ∧ ∀ s ∈ r, FindsAudd rows s

theorem audd_complete_iff (shm : Segments) (audd : AuddTable) :
    AuddComplete shm audd.rows ↔ Loadable sizeofAuh false shm audd.rows.length
      ((∀ row ∈ audd.rows, AuddFits row) ∧
        AuddFound audd.rows.length (audd.rows.filterMap AuddRow.id)) := by
  rw [← lcsAuddShmwrite_complete_iff]
  exact shmLoad_iff (by decide) (by decide) _

/-! ### Completeness -/

/-- Looking up the key of any loaded row finds the row exactly when the rows can be loaded, each
fits its cell and no bucket overflows, and the agents' numbers start with suitable `int`s. -/
theorem index_complete_iff (shm : Segments) (agents : AgentsTable) (audd : AuddTable) :
    (AgentsComplete shm agents.rows ↔ Loadable sizeofAh true shm agents.rows.length
      ((∀ row ∈ agents.rows, AgentFits row) ∧
        AgentsFound agents.rows.length (agents.rows.filterMap fun row => row.number))) ∧
    (AuddComplete shm audd.rows ↔ Loadable sizeofAuh false shm audd.rows.length
      ((∀ row ∈ audd.rows, AuddFits row) ∧
        AuddFound audd.rows.length (audd.rows.filterMap AuddRow.id))) :=
  ⟨agents_complete_iff shm agents, audd_complete_iff shm audd⟩

/-- A row of `agents` with a number. -/
def agentOf (number : Bytes) (h : (0 : UInt8) ∉ number) : AgentRow :=
  .ofTexts [[49], [48], number] (by simp [h])

/-- A row of `auto_dial_detail` with an id. -/
def auddOf (id : Bytes) (h : (0 : UInt8) ∉ id) : AuddRow := .ofTexts [id] (by simp [h])

/-- Two agents whose numbers start with no number. -/
def namedAgents : AgentsTable :=
  ⟨[agentOf [97] (by decide), agentOf [98] (by decide)], by decide⟩

/-- Five agents with numbers that leave no remainder. -/
def fiveAgents : AgentsTable :=
  ⟨[agentOf [48] (by decide), agentOf [53] (by decide), agentOf [49, 48] (by decide),
    agentOf [49, 53] (by decide), agentOf [50, 48] (by decide)], by decide⟩

/-- Three details with ids that leave no remainder. -/
def threeDetails : AuddTable :=
  ⟨[auddOf [48] (by decide), auddOf [51] (by decide), auddOf [54] (by decide)], by decide +kernel⟩

/-- A detail with a phone number of 32 digits. -/
def longPhone : AuddTable :=
  ⟨[.ofTexts [[49], [], [], [], [], [], List.replicate 32 48] (by decide)], by decide⟩

/-- The named agents are not found, nor is one of the five agents or of the three details, and the
phone number leaves its array. -/
theorem index_loses_rows :
    ¬ AgentsComplete ⟨.mapped, .mapped⟩ namedAgents.rows ∧
    ¬ AgentsComplete ⟨.mapped, .mapped⟩ fiveAgents.rows ∧
    ¬ AuddComplete ⟨.mapped, .mapped⟩ threeDetails.rows ∧
    ¬ AuddComplete ⟨.mapped, .mapped⟩ longPhone.rows := by
  simp only [agents_complete_iff, audd_complete_iff]
  have hloaded : ∀ {size n : ℕ} {tested : Bool} {P : Prop}, n ≠ 0 →
      Loadable size tested ⟨.mapped, .mapped⟩ n P → P := by
    intro size n tested P hn h
    obtain ⟨-, -, hdata⟩ := h.2 hn (by simp)
    rcases hdata with ⟨h, -⟩ | ⟨-, -, h⟩
    · cases h
    · exact h
  refine ⟨fun h => ?_, fun h => ?_, fun h => ?_, fun h => ?_⟩
  · obtain ⟨-, hnumbers, -⟩ := hloaded (by decide) h
    exact absurd ((hnumbers [97] (by decide)).2 (by decide)) (by decide)
  · obtain ⟨-, -, hslots⟩ := hloaded (by decide) h
    exact absurd (hslots [48] (by decide)) (by decide +kernel)
  · obtain ⟨-, hslots⟩ := hloaded (by decide) h
    exact absurd (hslots 0 (by decide +kernel)) (by decide +kernel)
  · obtain ⟨hfits, -⟩ := hloaded (by decide) h
    obtain ⟨s, hs, hlt⟩ := hfits _ (.head _) 6
    cases hs
    have hlength : (List.replicate 32 (48 : UInt8)).length < 25 := hlt
    exact absurd hlength (by decide)

end MemoryLeak.Cluster
