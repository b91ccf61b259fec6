import MemoryLeak.Cluster.ShmIndex
import MemoryLeak.SlotTable

/-!
# The tables in shared memory

`lcs_shm_write` and `lcs_audd_shmwrite` on the arrays as they lie in shared memory, rows and
slots together, and the searches of `lcs_exec_cbtrue` in them. An index outside of an array
has no outcome here.
-/
namespace MemoryLeak.Cluster
open MemoryLeak.CBytes MemoryLeak.CText MemoryLeak.SlotIndex MemoryLeak.SlotTable

/-- `lcs_shm_write` to `obj->ah`, `n` being `obj->n`. -/
def lcsShmWriteAh (n : ℤ) (t : Table LcsMmapAgents) (row : AgentRow) :
    Option (Table LcsMmapAgents) := do
  let a ← readAgent row
  let index ← lcsCommHash a.agentNumber.bytes 0 n
  write t index a

/-- The search for an agent: `strcmp` finds strings that are the same. -/
def agentSearch (n : ℤ) (t : Table LcsMmapAgents) (val : Bytes) :
    Option (Option LcsMmapAgents) := do
  let h ← lcsCommHash val (-1) n
  lookup (fun a : LcsMmapAgents => a.agentNumber.bytes) t val h

/-- `lcs_audd_shmwrite` to `p->data`, `n` being `p->ni->n`. -/
def lcsAuddShmwriteData (n : ℕ) (t : Table LcsMmapAutoDialDetail) (row : AuddRow) :
    Option (Table LcsMmapAutoDialDetail) := do
  let d ← readAudd row
  write t (lcsCommHashAudd d.id n) d

/-- The search for an auto dial detail. -/
def auddSearch (n : ℕ) (t : Table LcsMmapAutoDialDetail) (u : UInt64) :
    Option (Option LcsMmapAutoDialDetail) :=
  lookup LcsMmapAutoDialDetail.id t u (lcsCommHashAudd u n)

/-- A text that starts with a number which is an `int` and not negative. -/
def IsNonnegInt (p : Bytes) : Prop := ∃ v : ℕ, scanD p = some (v : ℤ) ∧ v < 2 ^ 31

/-- The bucket of such a text. -/
def numberBucket (n : ℕ) (p : Bytes) : ℕ := ((scanD p).getD 0).toNat % n

theorem lcsCommHash_nonneg {p : Bytes} (h : IsNonnegInt p) (index : BitVec 32) (n : ℕ) :
    lcsCommHash p index n = some (numberBucket n p : ℤ) := by
  obtain ⟨v, hv, hlt⟩ := h
  rw [lcsCommHash_number hv (by omega), numberBucket, hv, Option.getD_some, Int.toNat_natCast]
  rfl

/-- The rows are read and written, the buckets hold the numbers of their rows, and the search for
any number is sound. -/
def AgentsSound (n : ℕ) (rows : List AgentRow) : Prop :=
  ∃ (t : Table LcsMmapAgents) (agents : List LcsMmapAgents),
    rows.foldlM (lcsShmWriteAh (n : ℤ)) (init n lcsAgentsHashArrN) = some t ∧
    rows.map readAgent = agents.map some ∧
    (∀ b < n, BucketSound lcsAgentsHashArrN t agents
      (fun a => numberBucket n a.agentNumber.bytes) b) ∧
    ∀ val, IsNonnegInt val → SearchSound lcsAgentsHashArrN agents
      (fun a => numberBucket n a.agentNumber.bytes) (fun a => a.agentNumber.bytes) val
      (numberBucket n val) (agentSearch n t val)

/-- The agents are written in their buckets, and searched there, exactly when their rows fit. -/
theorem agents_sound_iff {n : ℕ} (hn : 0 < n) {rows : List AgentRow} (hlen : rows.length ≤ n)
    (hnumbers : ∀ row ∈ rows, ∃ p, row.number = some p ∧ IsNonnegInt p) :
    AgentsSound n rows ↔ ∀ row ∈ rows, AgentFits row := by
  simp only [← readAgent_fits, ← exists_map_read]
  constructor
  · rintro ⟨t, agents, -, hread, -⟩
    exact ⟨agents, hread⟩
  · rintro ⟨agents, hread⟩
    -- the rows are written as the agents that are read
    have hnonneg : ∀ a ∈ agents, IsNonnegInt a.agentNumber.bytes := by
      have hall : ∀ row ∈ rows, ∃ p a, row.number = some p ∧ readAgent row = some a ∧
          IsNonnegInt p := by
        intro row hrow
        obtain ⟨p, hp, hint⟩ := hnumbers row hrow
        obtain ⟨a, ha⟩ := exists_map_read.mp ⟨agents, hread⟩ row hrow
        exact ⟨p, a, hp, ha, hint⟩
      exact (forall_mem_key hread fun _ _ => readAgent_number).mp hall
    obtain ⟨t, hrun, ht⟩ := foldlM_write n lcsAgentsHashArrN
      (fun a : LcsMmapAgents => numberBucket n a.agentNumber.bytes)
      (fun t a => (lcsCommHash a.agentNumber.bytes 0 n).bind fun index => write t index a)
      (fun a ha t => by rw [lcsCommHash_nonneg (hnonneg a ha), Option.bind_some])
      (length_read hread ▸ hlen) fun a _ => Nat.mod_lt _ hn
    refine ⟨t, agents, (foldlM_read _).mpr ⟨agents, hread, hrun⟩, hread,
      fun b hb => ht.bucketSound hb, fun val hval => ?_⟩
    have hsearch : agentSearch n t val =
        lookup (fun a : LcsMmapAgents => a.agentNumber.bytes) t val (numberBucket n val : ℤ) := by
      rw [agentSearch, lcsCommHash_nonneg hval]
      rfl
    rw [hsearch]
    exact ht.searchSound (Nat.mod_lt _ hn) _ val fun a _ ha => ha ▸ rfl

/-- As `AgentsSound`, for auto dial details. -/
def AuddSound (n : ℕ) (rows : List AuddRow) : Prop :=
  ∃ (t : Table LcsMmapAutoDialDetail) (audd : List LcsMmapAutoDialDetail),
    rows.foldlM (lcsAuddShmwriteData n) (init n lcsAuddHashArrN) = some t ∧
    rows.map readAudd = audd.map some ∧
    (∀ b < n, BucketSound lcsAuddHashArrN t audd (fun d => d.id.toNat % n) b) ∧
    ∀ u : UInt64, SearchSound lcsAuddHashArrN audd (fun d => d.id.toNat % n)
      LcsMmapAutoDialDetail.id u (u.toNat % n) (auddSearch n t u)

/-- The details are written in their buckets, and searched there, exactly when their rows fit. -/
theorem audd_sound_iff {n : ℕ} (hn : 0 < n) {rows : List AuddRow} (hlen : rows.length ≤ n) :
    AuddSound n rows ↔ ∀ row ∈ rows, AuddFits row := by
  simp only [← readAudd_fits, ← exists_map_read]
  constructor
  · rintro ⟨t, audd, -, hread, -⟩
    exact ⟨audd, hread⟩
  · rintro ⟨audd, hread⟩
    obtain ⟨t, hrun, ht⟩ := foldlM_write n lcsAuddHashArrN
      (fun d : LcsMmapAutoDialDetail => d.id.toNat % n)
      (fun t d => write t (lcsCommHashAudd d.id n) d) (fun d _ t => rfl)
      (length_read hread ▸ hlen) fun d _ => Nat.mod_lt _ hn
    exact ⟨t, audd, (foldlM_read _).mpr ⟨audd, hread, hrun⟩, hread,
      fun b hb => ht.bucketSound hb, fun u =>
        ht.searchSound (Nat.mod_lt _ hn) _ u fun d _ hd => hd ▸ rfl⟩

/-- Whatever rows are written, the buckets hold their numbers and each search is sound, exactly when
each column of each row fits its cell. -/
theorem hash_index_sound_iff (n : ℕ) (hn : 0 < n) :
    (∀ rows : List AgentRow, rows.length ≤ n →
      (∀ row ∈ rows, ∃ p, row.number = some p ∧ IsNonnegInt p) →
      (AgentsSound n rows ↔ ∀ row ∈ rows, AgentFits row)) ∧
    ∀ rows : List AuddRow, rows.length ≤ n →
      (AuddSound n rows ↔ ∀ row ∈ rows, AuddFits row) :=
  ⟨fun _ hlen hnumbers => agents_sound_iff hn hlen hnumbers, fun _ hlen => audd_sound_iff hn hlen⟩

theorem hash_index_sound_iff_sample :
    AgentsSound 5 fiveAgents.rows ∧ AuddSound 5 threeDetails.rows := by
  obtain ⟨hagents, haudd⟩ := hash_index_sound_iff 5 (by omega)
  constructor
  · refine (hagents fiveAgents.rows (by decide) fun row hrow => ?_).mpr fun row hrow => ?_
    · simp only [fiveAgents, List.mem_cons, List.not_mem_nil, or_false] at hrow
      rcases hrow with rfl | rfl | rfl | rfl | rfl
      · exact ⟨_, rfl, 0, by decide, by omega⟩
      · exact ⟨_, rfl, 5, by decide, by omega⟩
      · exact ⟨_, rfl, 10, by decide, by omega⟩
      · exact ⟨_, rfl, 15, by decide, by omega⟩
      · exact ⟨_, rfl, 20, by decide, by omega⟩
    · have hread : ∀ row ∈ fiveAgents.rows, (readAgent row).isSome = true := by decide +kernel
      exact (readAgent_fits row).mp (Option.isSome_iff_exists.mp (hread row hrow))
  · refine (haudd threeDetails.rows (by decide)).mpr fun row hrow => ?_
    have hread : ∀ row ∈ threeDetails.rows, (readAudd row).isSome = true := by decide +kernel
    exact (readAudd_fits row).mp (Option.isSome_iff_exists.mp (hread row hrow))

/-- A phone number of 32 digits leaves its array. -/
theorem long_phone_unsound : ¬ AuddSound 2 longPhone.rows := by
  rintro ⟨t, audd, -, hread, -⟩
  have hfits := (readAudd_fits _).mp (exists_map_read.mp ⟨audd, hread⟩ _ (.head _))
  obtain ⟨s, hs, hlt⟩ := hfits 6
  cases hs
  have hlength : (List.replicate 32 (48 : UInt8)).length < 25 := hlt
  exact absurd hlength (by decide)

end MemoryLeak.Cluster
