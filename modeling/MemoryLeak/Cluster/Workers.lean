import MemoryLeak.CText
import MemoryLeak.Runs
import MemoryLeak.ThreadPool

/-!
# The manager and the day collectors wait for their workers

`lcs_start_bdata` of the manager creates a thread for each server and then counts it;
`lcs_hcollect_ana` of the day collectors counts a thread for each hour and then creates
it. Both wait until the counter is zero. A step is one access to the counter or the
creation of one thread; which thread takes the next step is open, and so is whether a
creation succeeds, since the result of `pthread_create` is not looked at.
-/
namespace MemoryLeak.Cluster
open MemoryLeak.CBytes MemoryLeak.CText MemoryLeak.Runs MemoryLeak.ThreadPool

/-! ### The manager -/

/-- `LCS_MYSQL_SERVER_INFO`, its dates in buffers of 32 bytes. -/
structure ServerInfo where
  startdate : Bytes
  currentdate : Bytes
  lastdate : Bytes

/-- `LCS_MYSQL_SERVER_INFO_LIST`. -/
structure ServerInfoList where
  listinfo : List ServerInfo
  startdate : Bytes
  currentdate : Bytes
  lastdate : Bytes
  iscomplete : Bool

/-- `tomorrow` is the day after a date, when the time functions print one. -/
def lcsNextDay (tomorrow : Bytes → Option Bytes) (p : ServerInfoList) : ServerInfoList :=
  if text p.startdate = [] then { p with iscomplete := true }
  else if text p.lastdate = [] then { p with iscomplete := true }
  else if text p.currentdate = [] then
    { p with currentdate := memcpy p.currentdate 0 (text p.startdate ++ [0]) }
  else if 0 ≤ strcmp p.currentdate p.lastdate then { p with iscomplete := true }
  else
    match tomorrow (text p.currentdate) with
    | some outtime => { p with currentdate := memcpy (zeros 32) 0 (outtime.take 10) }
    | none => p

/-- Where a thread is in `lcs_thread_spec_date`. -/
inductive SpecDate where
  | getHistory
  | getFromMysql
  | runAnalysis
  | decreaseCount

/-- The next call of `lcs_thread_spec_date`, after one that ended with or without an error. -/
def lcsThreadSpecDate (ok : Bool) : SpecDate → Option SpecDate
  | .getHistory => some (if ok then .getFromMysql else .decreaseCount)
  | .getFromMysql => some (if ok then .runAnalysis else .decreaseCount)
  | .runAnalysis => some .decreaseCount
  | .decreaseCount => none

/-- Where the main thread is in the loop of `lcs_start_bdata`. -/
inductive ManagerPc where
  | nextDay
  | server (i : ℕ)
  | create (i : ℕ)
  | increase (i : ℕ)
  | wait (w : Wait)
  | done

/-- The argument of a thread is the index of its server. -/
structure Manager where
  pc : ManagerPc
  list : ServerInfoList
  pool : Pool ℕ SpecDate

inductive ManagerEvent where
  | main (created : Bool)
  | thread (k : ℕ) (ok : Bool)

/-- The main thread at the head of the loop over the servers. -/
def serverTurn (s : Manager) (i : ℕ) : Manager :=
  match s.list.listinfo[i]? with
  | none => { s with pc := .wait .get }
  | some info =>
    if strcmp info.startdate s.list.currentdate ≤ 0 ∧
        strcmp s.list.currentdate info.lastdate ≤ 0 then
      let info := { info with currentdate := memcpy info.currentdate 0 (text s.list.currentdate) }
      { s with pc := .create i, list := { s.list with listinfo := s.list.listinfo.set i info } }
    else { s with pc := .server (i + 1) }

def managerStep (tomorrow : Bytes → Option Bytes) (s : Manager) : ManagerEvent → Option Manager
  | .thread k ok => (s.pool.step (lcsThreadSpecDate ok) k).map fun pool => { s with pool := pool }
  | .main created =>
    match s.pc with
    | .nextDay =>
      let list := lcsNextDay tomorrow s.list
      some { s with list := list, pc := if list.iscomplete then .done else .server 0 }
    | .server i => some (serverTurn s i)
    | .create i =>
      let pool := if created then s.pool.create i .getHistory else s.pool
      some { s with pool := pool, pc := .increase i }
    | .increase i => some { s with pool := s.pool.increase, pc := .server (i + 1) }
    | .wait w =>
      match w.step s.pool.count with
      | some w' => some { s with pc := .wait w' }
      | none => some { s with pc := .nextDay }
    | .done => none

def managerStart (list : ServerInfoList) : Manager := ⟨.nextDay, list, ⟨0, []⟩⟩

/-- When the main thread leaves the wait loop all threads have finished, and no step
changes the date of a server that a thread is at work for. -/
def ManagerWaits (tomorrow : Bytes → Option Bytes) (s : Manager) (e : ManagerEvent) : Prop :=
  ∀ s', managerStep tomorrow s e = some s' →
    (∀ w, s.pc = .wait w → (∀ w', s'.pc ≠ .wait w') → ∀ t ∈ s'.pool.threads, t.2 = none) ∧
      ∀ i, s'.list.listinfo[i]?.map ServerInfo.currentdate ≠
        s.list.listinfo[i]?.map ServerInfo.currentdate → i ∉ s.pool.atWork

/-- What holds where the main thread is: the servers whose threads may be at work, and how
far the counter may be behind. -/
def ManagerInv (s : Manager) : Prop :=
  match s.pc with
  | .nextDay | .done => 0 ≤ s.pool.credit ∧ s.pool.atWork = []
  | .server i | .create i => 0 ≤ s.pool.credit ∧ ∀ a ∈ s.pool.atWork, a < i
  | .increase i => -1 ≤ s.pool.credit ∧ ∀ a ∈ s.pool.atWork, a < i + 1
  | .wait w => w.Knows s.pool

theorem managerInv_start (list : ServerInfoList) : ManagerInv (managerStart list) :=
  ⟨le_rfl, rfl⟩

/-- A turn of the wait loop goes on in it or leaves it. -/
theorem managerStep_wait {tomorrow : Bytes → Option Bytes} {w : Wait} {list : ServerInfoList}
    {pool : Pool ℕ SpecDate} {created : Bool} {s' : Manager}
    (h : managerStep tomorrow ⟨.wait w, list, pool⟩ (.main created) = some s') :
    (∃ w', w.step pool.count = some w' ∧ s' = ⟨.wait w', list, pool⟩) ∨
      w.step pool.count = none ∧ s' = ⟨.nextDay, list, pool⟩ := by
  cases hw : w.step pool.count with
  | some w' =>
    simp only [managerStep, hw, Option.some.injEq] at h
    exact Or.inl ⟨w', rfl, h.symm⟩
  | none =>
    simp only [managerStep, hw, Option.some.injEq] at h
    exact Or.inr ⟨rfl, h.symm⟩

theorem managerThread_inv {pc : ManagerPc} {list : ServerInfoList} {pool pool' : Pool ℕ SpecDate}
    {ok : Bool} {k : ℕ} (hs : ManagerInv ⟨pc, list, pool⟩)
    (hstep : pool.step (lcsThreadSpecDate ok) k = some pool') : ManagerInv ⟨pc, list, pool'⟩ := by
  obtain ⟨hsub, hcredit⟩ := Pool.step_some hstep
  have hless : ∀ {i}, (∀ a ∈ pool.atWork, a < i) → ∀ a ∈ pool'.atWork, a < i :=
    fun hlt a ha => hlt a (hsub.subset ha)
  cases pc with
  | nextDay => exact ⟨hcredit ▸ hs.1, List.sublist_nil.mp (hs.2 ▸ hsub)⟩
  | done => exact ⟨hcredit ▸ hs.1, List.sublist_nil.mp (hs.2 ▸ hsub)⟩
  | server i => exact ⟨hcredit ▸ hs.1, hless hs.2⟩
  | create i => exact ⟨hcredit ▸ hs.1, hless hs.2⟩
  | increase i => exact ⟨hcredit ▸ hs.1, hless hs.2⟩
  | wait w => exact Wait.Knows.thread hs hstep

theorem managerMain_inv {tomorrow : Bytes → Option Bytes} {pc : ManagerPc} {list : ServerInfoList}
    {pool : Pool ℕ SpecDate} {created : Bool} {s' : Manager} (hs : ManagerInv ⟨pc, list, pool⟩)
    (h : managerStep tomorrow ⟨pc, list, pool⟩ (.main created) = some s') : ManagerInv s' := by
  cases pc with
  | nextDay =>
    cases h
    unfold ManagerInv
    by_cases hdone : (lcsNextDay tomorrow list).iscomplete = true
    · simp only [if_pos hdone]
      exact hs
    · simp only [if_neg hdone]
      refine ⟨hs.1, fun a ha => ?_⟩
      rw [hs.2] at ha
      cases ha
  | server i =>
    cases h
    unfold serverTurn
    dsimp only
    split
    · exact ⟨hs.1, fun hw => by cases hw⟩
    · split
      · exact hs
      · exact ⟨hs.1, fun a ha => (hs.2 a ha).trans (Nat.lt_succ_self i)⟩
  | create i =>
    replace hs : 0 ≤ pool.credit ∧ ∀ a ∈ pool.atWork, a < i := hs
    have hcreated := pool.credit_created i SpecDate.getHistory created
    cases h
    refine ⟨by dsimp only; omega, fun a ha => ?_⟩
    rcases Pool.mem_atWork_created ha with ha | rfl
    · exact (hs.2 a ha).trans (Nat.lt_succ_self i)
    · exact Nat.lt_succ_self a
  | increase i =>
    replace hs : -1 ≤ pool.credit ∧ ∀ a ∈ pool.atWork, a < i + 1 := hs
    cases h
    refine ⟨?_, hs.2⟩
    dsimp only
    rw [Pool.credit_increase]
    omega
  | wait w =>
    replace hs : w.Knows pool := hs
    rcases managerStep_wait h with ⟨w', hw, rfl⟩ | ⟨hw, rfl⟩
    · exact hs.step hw
    · exact ⟨hs.1, hs.left hw⟩
  | done => cases h

theorem managerStep_inv (tomorrow : Bytes → Option Bytes) (s : Manager) (e : ManagerEvent)
    (s' : Manager) (hs : ManagerInv s) (h : managerStep tomorrow s e = some s') :
    ManagerInv s' := by
  cases e with
  | thread k ok =>
    obtain ⟨pool', hstep, rfl⟩ := Option.map_eq_some_iff.mp h
    exact managerThread_inv hs hstep
  | main created => exact managerMain_inv hs h

/-- The next day is looked for in the dates of the list. -/
theorem lcsNextDay_listinfo (tomorrow : Bytes → Option Bytes) (p : ServerInfoList) :
    (lcsNextDay tomorrow p).listinfo = p.listinfo := by
  unfold lcsNextDay
  split_ifs
  · rfl
  · rfl
  · rfl
  · rfl
  · split <;> rfl

/-- A turn sets the date of its own server. -/
theorem serverTurn_of_ne (s : Manager) {i j : ℕ} (h : i ≠ j) :
    (serverTurn s j).list.listinfo[i]? = s.list.listinfo[i]? := by
  unfold serverTurn
  split
  · rfl
  · split
    · dsimp only
      rw [List.getElem?_set_ne h.symm]
    · rfl

/-- What the steps of the main thread and of the threads do to the dates of the servers. -/
theorem managerStep_dates {tomorrow : Bytes → Option Bytes} {s s' : Manager} {e : ManagerEvent}
    (h : managerStep tomorrow s e = some s') {i : ℕ}
    (hne : s'.list.listinfo[i]?.map ServerInfo.currentdate ≠
      s.list.listinfo[i]?.map ServerInfo.currentdate) : s.pc = .server i := by
  obtain ⟨pc, list, pool⟩ := s
  cases e with
  | thread k ok =>
    obtain ⟨pool', -, rfl⟩ := Option.map_eq_some_iff.mp h
    exact absurd rfl hne
  | main created =>
    cases pc with
    | nextDay =>
      cases h
      refine absurd ?_ hne
      dsimp only
      rw [lcsNextDay_listinfo]
    | server j =>
      cases h
      by_cases hij : i = j
      · rw [hij]
      · refine absurd ?_ hne
        rw [serverTurn_of_ne _ hij]
    | create j =>
      cases h
      exact absurd rfl hne
    | increase j =>
      cases h
      exact absurd rfl hne
    | wait w =>
      rcases managerStep_wait h with ⟨w', -, rfl⟩ | ⟨-, rfl⟩
      · exact absurd rfl hne
      · exact absurd rfl hne
    | done => cases h

theorem managerWaits_of_inv (tomorrow : Bytes → Option Bytes) (s : Manager) (e : ManagerEvent)
    (hs : ManagerInv s) : ManagerWaits tomorrow s e := by
  intro s' h
  refine ⟨fun w hw hleft => ?_, fun i hne ha => ?_⟩
  · have hs' := managerStep_inv tomorrow s e s' hs h
    obtain ⟨pc, list, pool⟩ := s
    subst hw
    cases e with
    | thread k ok =>
      obtain ⟨pool', -, rfl⟩ := Option.map_eq_some_iff.mp h
      exact absurd rfl (hleft w)
    | main created =>
      rcases managerStep_wait h with ⟨w', -, rfl⟩ | ⟨-, rfl⟩
      · exact absurd rfl (hleft w')
      · exact Pool.atWork_eq_nil_iff.mp hs'.2
  · have hpc := managerStep_dates h hne
    obtain ⟨pc, list, pool⟩ := s
    subst hpc
    exact absurd (hs.2 i ha) (lt_irrefl i)

/-! ### The day collectors -/

/-- Where a thread is in `lcs_ana_005`, or in the like function of another collector. -/
inductive AnaThread where
  | subtask
  | decreaseCount

def lcsAna005 : AnaThread → Option AnaThread
  | .subtask => some .decreaseCount
  | .decreaseCount => none

/-- Where the main thread is in `lcs_hcollect_ana`; `i` is an index of `sub`. -/
inductive CollectPc where
  | sub (i : ℕ)
  | increase (i : ℕ)
  | create (i : ℕ)
  | wait (w : Wait)
  | collect

/-- The argument of a thread is the index of its hour. -/
structure Collector where
  pc : CollectPc
  pool : Pool ℕ AnaThread

/-- `having` is what `lcs_comm_filexist` says of the hour's file. -/
inductive CollectEvent where
  | main (having created : Bool)
  | thread (k : ℕ)

/-- With `n` entries in `sub`; behind the wait loop no thread is created. -/
def collectStep (n : ℕ) (s : Collector) : CollectEvent → Option Collector
  | .thread k => (s.pool.step lcsAna005 k).map fun pool => { s with pool := pool }
  | .main having created =>
    match s.pc with
    | .sub i =>
      if i < n then some { s with pc := if having then .sub (i + 1) else .increase i }
      else some { s with pc := .wait .get }
    | .increase i => some { s with pool := s.pool.increase, pc := .create i }
    | .create i =>
      let pool := if created then s.pool.create i .subtask else s.pool
      some { s with pool := pool, pc := .sub (i + 1) }
    | .wait w =>
      match w.step s.pool.count with
      | some w' => some { s with pc := .wait w' }
      | none => some { s with pc := .collect }
    | .collect => none

def collectStart : Collector := ⟨.sub 0, ⟨0, []⟩⟩

/-- When the main thread leaves the wait loop all threads have finished. -/
def CollectorWaits (n : ℕ) (s : Collector) (e : CollectEvent) : Prop :=
  ∀ s', collectStep n s e = some s' → ∀ w, s.pc = .wait w → (∀ w', s'.pc ≠ .wait w') →
    ∀ t ∈ s'.pool.threads, t.2 = none

/-- How far the counter is ahead where the main thread is. -/
def CollectorInv (s : Collector) : Prop :=
  match s.pc with
  | .sub _ | .increase _ => 0 ≤ s.pool.credit
  | .create _ => 1 ≤ s.pool.credit
  | .wait w => w.Knows s.pool
  | .collect => s.pool.atWork = []

theorem collectorInv_start : CollectorInv collectStart := show (0 : ℤ) ≤ 0 from le_rfl

theorem collectStep_wait {n : ℕ} {w : Wait} {pool : Pool ℕ AnaThread} {having created : Bool}
    {s' : Collector} (h : collectStep n ⟨.wait w, pool⟩ (.main having created) = some s') :
    (∃ w', w.step pool.count = some w' ∧ s' = ⟨.wait w', pool⟩) ∨
      w.step pool.count = none ∧ s' = ⟨.collect, pool⟩ := by
  cases hw : w.step pool.count with
  | some w' =>
    simp only [collectStep, hw, Option.some.injEq] at h
    exact Or.inl ⟨w', rfl, h.symm⟩
  | none =>
    simp only [collectStep, hw, Option.some.injEq] at h
    exact Or.inr ⟨rfl, h.symm⟩

theorem collectStep_inv (n : ℕ) (s : Collector) (e : CollectEvent) (s' : Collector)
    (hs : CollectorInv s) (h : collectStep n s e = some s') : CollectorInv s' := by
  obtain ⟨pc, pool⟩ := s
  cases e with
  | thread k =>
    obtain ⟨pool', hstep, rfl⟩ := Option.map_eq_some_iff.mp h
    obtain ⟨hsub, hcredit⟩ := Pool.step_some hstep
    cases pc with
    | sub i => exact le_of_le_of_eq hs hcredit.symm
    | increase i => exact le_of_le_of_eq hs hcredit.symm
    | create i => exact le_of_le_of_eq hs hcredit.symm
    | wait w => exact Wait.Knows.thread hs hstep
    | collect => exact List.sublist_nil.mp ((show pool.atWork = [] from hs) ▸ hsub)
  | main having created =>
    cases pc with
    | sub i =>
      replace hs : 0 ≤ pool.credit := hs
      simp only [collectStep] at h
      split at h
      · cases h
        cases having with
        | false => exact hs
        | true => exact hs
      · cases h
        exact ⟨hs, fun hw => by cases hw⟩
    | increase i =>
      replace hs : 0 ≤ pool.credit := hs
      cases h
      show 1 ≤ pool.increase.credit
      rw [Pool.credit_increase]
      omega
    | create i =>
      replace hs : 1 ≤ pool.credit := hs
      have hcreated := pool.credit_created i AnaThread.subtask created
      cases h
      unfold CollectorInv
      dsimp only
      omega
    | wait w =>
      replace hs : w.Knows pool := hs
      rcases collectStep_wait h with ⟨w', hw, rfl⟩ | ⟨hw, rfl⟩
      · exact hs.step hw
      · exact hs.left hw
    | collect => cases h

theorem collectorWaits_of_inv (n : ℕ) (s : Collector) (e : CollectEvent) (hs : CollectorInv s) :
    CollectorWaits n s e := by
  intro s' h w hw hleft
  have hs' := collectStep_inv n s e s' hs h
  obtain ⟨pc, pool⟩ := s
  subst hw
  cases e with
  | thread k =>
    obtain ⟨pool', -, rfl⟩ := Option.map_eq_some_iff.mp h
    exact absurd rfl (hleft w)
  | main having created =>
    rcases collectStep_wait h with ⟨w', -, rfl⟩ | ⟨-, rfl⟩
    · exact absurd rfl (hleft w')
    · exact Pool.atWork_eq_nil_iff.mp hs'

/-- Over every schedule and every round, both main threads leave their wait loop only when
all their threads have finished, and the manager sets the date of a server only while no
thread is at work for it. -/
theorem worker_barrier (tomorrow : Bytes → Option Bytes) (list : ServerInfoList)
    (es : List ManagerEvent) (n : ℕ) (es' : List CollectEvent) :
    AllSteps (managerStep tomorrow) (ManagerWaits tomorrow) (managerStart list) es ∧
      AllSteps (collectStep n) (CollectorWaits n) collectStart es' := by
  constructor
  · exact allSteps_of_invariant (managerStep_inv tomorrow) (managerWaits_of_inv tomorrow)
      (managerInv_start list) es
  · exact allSteps_of_invariant (P := CollectorInv) (collectStep_inv n) (collectorWaits_of_inv n)
      collectorInv_start es'

/-- Two hours, the file of the first is there: the thread of the other ends before the
main thread is through. -/
example : ((run (collectStep 2) collectStart
    [.main true true, .main false true, .main false true, .main false true, .main false true,
      .main false true, .thread 0, .main false true, .thread 0, .main false true,
      .main false true, .main false true]).map fun s => s.pool.count) = some 0 := by decide

end MemoryLeak.Cluster
