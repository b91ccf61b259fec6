import MemoryLeak.CBytes
import MemoryLeak.Loops
import Mathlib.Data.List.Dedup
import Mathlib.Data.Int.Order.Basic

/-!
# Windows of a day

`lcs_start_bdata`: the calls of a day are exported window by window. The texts that the program
keeps have one format; each stands for the second that `lcs_str2_time` makes of it, so `strcmp` and
SQL compare seconds. A directory is named by the year, month, day, hour and minute of its window's
start. The queries are those of the table `cdr`, and MySQL answers them.
-/
namespace MemoryLeak.Cluster
open MemoryLeak.CBytes MemoryLeak.Loops

/-- A row of `cdr`, the columns that the queries test. -/
structure CallRecord where
  recid : ℤ
  linkedid : Bytes
  calldate : ℤ
deriving DecidableEq

/-- The table `cdr`, with its key. -/
structure CdrTable where
  rows : List CallRecord
  key : (rows.map CallRecord.recid).Nodup

/-- The rows from `date` 00:00:00 to 23:59:59. -/
def CdrTable.day (cdr : CdrTable) (date : ℤ) : List CallRecord :=
  cdr.rows.filter fun r => date ≤ r.calldate ∧ r.calldate ≤ date + 86399

/-- What one turn of the loop, with the initialisation where it belongs to it, has done:
the window, the ids put in `linkedid_tmp`, the directory created, and the directory and
rows of the file written. -/
structure Pass where
  low : ℤ
  hi : ℤ
  inserted : List Bytes
  created : Option ℤ
  exported : Option (ℤ × List CallRecord)
deriving DecidableEq

structure BackupState where
  low : ℤ
  hi : ℤ
  currentDir : Option ℤ
  cdr : List CallRecord
  linkedidTmp : List Bytes
  cdrTmp : List ℤ
  inserted : List Bytes
  created : Option ℤ
  exported : Option (ℤ × List CallRecord)
  passes : List Pass

/-- What a read of `*(p->con)` gives. `p->con` is the address of `conn` in `lcs_init_param`, which
is gone by then, so it may be anything. -/
inductive ConnRead
  | connected
  | null
  | other
deriving DecidableEq

/-- The reads of a run: by `lcs_init_circle`, in each turn by `lcs_clear_history`, for the table
`cdr` and for the other tables, and by `lcs_try_close` at the end. -/
structure ConnReads where
  init : ConnRead
  history : ℕ → ConnRead
  cdr : ℕ → ConnRead
  others : ℕ → ConnRead
  close : ConnRead

/-- `select MIN(calldate), MAX(calldate)`; no moment where there are no rows. -/
def lcsGetInittime (rows : List CallRecord) : Option (ℤ × ℤ) :=
  match (rows.map CallRecord.calldate).min?, (rows.map CallRecord.calldate).max? with
  | some inittime, some endtime => some (inittime, endtime)
  | _, _ => none

def lcsClearTmpTable (s : BackupState) : BackupState :=
  { s with
    cdr := s.cdr.filter fun r => r.recid ∉ s.cdrTmp
    linkedidTmp := []
    cdrTmp := [] }

def lcsGenLinkedid (con : ConnRead) (s : BackupState) : Option BackupState :=
  match con with
  | .connected =>
    let s := lcsClearTmpTable s
    let ids := ((s.cdr.filter fun r => s.low ≤ r.calldate ∧ r.calldate < s.hi).map
      CallRecord.linkedid).dedup
    some { s with linkedidTmp := ids, inserted := ids }
  | .null => some s
  | .other => none

/-- The directory of the minute in which the window starts. -/
def lcsCreateSubdir (s : BackupState) : BackupState :=
  { s with currentDir := some (s.low / 60), created := some (s.low / 60) }

def lcsInitCircle (con : ConnRead) (s : BackupState) : Option BackupState :=
  (lcsGenLinkedid con s).map lcsCreateSubdir

/-- `lcs_try_fetch`: the rows selected, ordered by `calldate`, replace the file in `current_dir`. -/
def lcsTryFetch (rows : List CallRecord) (s : BackupState) : BackupState :=
  { s with exported := s.currentDir.map fun dir => (dir, rows) }

section Clock

/- `shown` is the second that `lcs_str2_time` makes of the text which `lcs_time2_str` makes of a
second: the same one, but an hour more while the zone has summer time, which `tm_isdst` denies. -/
variable (shown : ℤ → ℤ)

/-- The window around a moment; there is none for a step of zero, by which it is divided. -/
def lcsGetRange (step mile : ℤ) : Option (ℤ × ℤ) :=
  if step = 0 then none
  else some (shown (mile - mile.tmod step), shown (mile + step - mile.tmod step))

/-- `lcs_try_query` for the table `cdr`; a record id that `cdr_tmp` has already is an error. -/
def lcsTryQuery (con : ConnRead) (s : BackupState) : Option BackupState :=
  match con with
  | .connected =>
    let supc := shown (s.hi + 4800)
    let recids := (s.cdr.filter fun r => r.calldate < supc ∧ r.linkedid ∈ s.linkedidTmp).map
      CallRecord.recid
    if (s.cdrTmp ++ recids).Nodup then
      some (lcsTryFetch ((s.cdr.filter fun r => r.linkedid ∈ s.linkedidTmp).mergeSort fun a b =>
        a.calldate ≤ b.calldate) { s with cdrTmp := s.cdrTmp ++ recids })
    else some s
  | .null => some s
  | .other => none

def lcsUpdateTime (step : ℤ) (s : BackupState) : BackupState :=
  { s with low := s.hi, hi := shown (s.hi + step) }

/-- `lcs_end_circle`, with the turn's pass noted. -/
def lcsEndCircle (step : ℤ) (s : BackupState) : BackupState :=
  lcsUpdateTime shown step { s with
    passes := s.passes ++ [⟨s.low, s.hi, s.inserted, s.created, s.exported⟩]
    inserted := []
    created := none
    exported := none }

/-- A turn of the loop; `outtime` ends it. `lcs_clear_history` does not test its connection, and the
other tables are left out where theirs is null. -/
def circleTurn (reads : ConnReads) (step endtime : ℤ) (s : BackupState) :
    Option (Turn BackupState) :=
  let k := s.passes.length
  if reads.history k ≠ .connected then none
  else if endtime < s.low then some (.leave s)
  else do
    let s ← lcsTryQuery shown (reads.cdr k) s
    if reads.others k = .other then none else some (.again (lcsEndCircle shown step s))

/-- The state before `lcs_init_circle`. -/
def startState (low hi : ℤ) (rows : List CallRecord) : BackupState :=
  ⟨low, hi, none, rows, [], [], [], none, none, []⟩

/-- The passes of `lcs_start_bdata`, which is not entered where the day has no calls. -/
def lcsStartBdata (reads : ConnReads) (fuel : ℕ) (step : ℤ) (cdr : CdrTable) (date : ℤ) :
    Option (List Pass) :=
  match lcsGetInittime (cdr.day date) with
  | none => some []
  | some (inittime, endtime) => do
    let (low, hi) ← lcsGetRange shown step inittime
    let s ← lcsInitCircle reads.init (startState low hi (cdr.day date))
    let s ← whileLoop (circleTurn shown reads step endtime) fuel s
    if reads.close = .other then none else some s.passes

end Clock

/-! ### Coverage -/

/-- The pass of a call's window puts it in `linkedid_tmp` and exports it into the directory created
for that window. -/
def Covered (passes : List Pass) (r : CallRecord) : Prop :=
  ∃ p ∈ passes, (p.low ≤ r.calldate ∧ r.calldate < p.hi) ∧ r.linkedid ∈ p.inserted ∧
    ∃ dir rows, p.created = some dir ∧ p.exported = some (dir, rows) ∧ r ∈ rows

/-- No call is exported into a directory created for another window. -/
def NoneElsewhere (passes : List Pass) : Prop :=
  ∀ p ∈ passes, ∀ dir rows, p.exported = some (dir, rows) → ∀ r ∈ rows,
    ∀ q ∈ passes, q.created = some dir → q.low ≤ r.calldate ∧ r.calldate < q.hi

/-- Ids are put in `linkedid_tmp` for the first window only. -/
structure FirstWindowOnly (low hi : ℤ) (s : BackupState) : Prop where
  passes : ∀ p ∈ s.passes, p.inserted = [] ∨ p.low = low ∧ p.hi = hi
  current : s.inserted = [] ∨ s.low = low ∧ s.hi = hi

theorem lcsGetInittime_eq_none {rows : List CallRecord} :
    lcsGetInittime rows = none ↔ rows = [] := by
  cases rows with
  | nil => simp [lcsGetInittime]
  | cons r rows => simp [lcsGetInittime]

/-- The first and the last call of the day. -/
theorem lcsGetInittime_spec {rows : List CallRecord} {inittime endtime : ℤ}
    (h : lcsGetInittime rows = some (inittime, endtime)) :
    (∃ r ∈ rows, r.calldate = inittime) ∧ (∃ r ∈ rows, r.calldate = endtime) ∧
      ∀ r ∈ rows, inittime ≤ r.calldate ∧ r.calldate ≤ endtime := by
  unfold lcsGetInittime at h
  split at h
  case h_1 lo hi hmin hmax =>
    obtain ⟨rfl, rfl⟩ := Prod.mk.inj (Option.some.inj h)
    obtain ⟨hlo, hle⟩ := List.min?_eq_some_iff.mp hmin
    obtain ⟨hhi, hge⟩ := List.max?_eq_some_iff.mp hmax
    exact ⟨List.mem_map.mp hlo, List.mem_map.mp hhi, fun r hr =>
      ⟨hle _ (List.mem_map_of_mem hr), hge _ (List.mem_map_of_mem hr)⟩⟩
  case h_2 => cases h

theorem lcsGetInittime_le {rows : List CallRecord} {inittime endtime : ℤ}
    (h : lcsGetInittime rows = some (inittime, endtime)) : inittime ≤ endtime := by
  obtain ⟨⟨r, hr, hfirst⟩, -, hbetween⟩ := lcsGetInittime_spec h
  exact hfirst ▸ (hbetween r hr).2

/-- All calls lie in a window when the first and the last do. -/
theorem calls_in_window {rows : List CallRecord} {inittime endtime : ℤ}
    (h : lcsGetInittime rows = some (inittime, endtime)) (low hi : ℤ) :
    (∀ r ∈ rows, low ≤ r.calldate ∧ r.calldate < hi) ↔ low ≤ inittime ∧ endtime < hi := by
  obtain ⟨⟨r, hr, hfirst⟩, ⟨r', hr', hlast⟩, hbetween⟩ := lcsGetInittime_spec h
  constructor
  · intro hall
    exact ⟨hfirst ▸ (hall r hr).1, hlast ▸ (hall r' hr').2⟩
  · rintro ⟨hlow, hhi⟩ q hq
    have hq := hbetween q hq
    omega

/-- The state in which the loop is entered. -/
theorem lcsInitCircle_start (low hi : ℤ) (rows : List CallRecord) :
    lcsInitCircle .connected (startState low hi rows) =
      let ids := ((rows.filter fun r => low ≤ r.calldate ∧ r.calldate < hi).map
        CallRecord.linkedid).dedup
      some ⟨low, hi, some (low / 60), rows, ids, [], ids, some (low / 60), none, []⟩ := by
  simp [lcsInitCircle, lcsGenLinkedid, lcsClearTmpTable, lcsCreateSubdir, startState]

theorem lcsInitCircle_frame {con : ConnRead} {low hi : ℤ} {rows : List CallRecord}
    {s : BackupState} (h : lcsInitCircle con (startState low hi rows) = some s) :
    s.low = low ∧ s.hi = hi ∧ s.passes = [] ∧ s.exported = none ∧
      (con ≠ .connected → s.inserted = []) := by
  cases con with
  | connected =>
    rw [lcsInitCircle_start] at h
    cases h
    exact ⟨rfl, rfl, rfl, rfl, fun hne => absurd rfl hne⟩
  | null =>
    cases h
    exact ⟨rfl, rfl, rfl, rfl, fun _ => rfl⟩
  | other => cases h

section Run

variable {shown : ℤ → ℤ} {reads : ConnReads} {step endtime : ℤ}

theorem lcsTryQuery_frame {con : ConnRead} {s s' : BackupState}
    (h : lcsTryQuery shown con s = some s') : s'.passes = s.passes ∧ s'.inserted = s.inserted ∧
      s'.created = s.created ∧ s'.low = s.low ∧ s'.hi = s.hi ∧
      (con ≠ .connected → s'.exported = s.exported) := by
  cases con with
  | connected =>
    simp only [lcsTryQuery, lcsTryFetch] at h
    split_ifs at h <;> cases h <;> exact ⟨rfl, rfl, rfl, rfl, rfl, fun hne => absurd rfl hne⟩
  | null =>
    cases h
    exact ⟨rfl, rfl, rfl, rfl, rfl, fun _ => rfl⟩
  | other => cases h

theorem lcsTryQuery_connected (shown : ℤ → ℤ) (s : BackupState) :
    ∃ s', lcsTryQuery shown .connected s = some s' := by
  simp only [lcsTryQuery]
  split_ifs
  · exact ⟨_, rfl⟩
  · exact ⟨s, rfl⟩

/-- The first query of a connection finds no record id in `cdr_tmp`. -/
theorem lcsTryQuery_exported {s : BackupState} (htmp : s.cdrTmp = [])
    (hkey : (s.cdr.map CallRecord.recid).Nodup) :
    ∃ s', lcsTryQuery shown .connected s = some s' ∧ s'.exported = s.currentDir.map fun dir =>
      (dir, (s.cdr.filter fun r => r.linkedid ∈ s.linkedidTmp).mergeSort fun a b =>
        a.calldate ≤ b.calldate) := by
  have hnew : (s.cdrTmp ++ (s.cdr.filter fun r => r.calldate < shown (s.hi + 4800) ∧
      r.linkedid ∈ s.linkedidTmp).map CallRecord.recid).Nodup := by
    rw [htmp, List.nil_append]
    exact hkey.sublist (List.filter_sublist.map _)
  exact ⟨_, if_pos hnew, rfl⟩

/-- What a turn of the loop can do. -/
theorem circleTurn_eq_some_iff {s : BackupState} {t : Turn BackupState} :
    circleTurn shown reads step endtime s = some t ↔
      reads.history s.passes.length = .connected ∧
      ((endtime < s.low ∧ t = .leave s) ∨
        (s.low ≤ endtime ∧ reads.others s.passes.length ≠ .other ∧
          ∃ s₁, lcsTryQuery shown (reads.cdr s.passes.length) s = some s₁ ∧
            t = .again (lcsEndCircle shown step s₁))) := by
  by_cases hhistory : reads.history s.passes.length = .connected
  · rw [circleTurn, if_neg (not_not.mpr hhistory), and_iff_right hhistory]
    by_cases hout : endtime < s.low
    · simp [hout, not_le.mpr hout, eq_comm]
    · rw [if_neg hout]
      simp only [hout, false_and, false_or, not_lt.mp hout, true_and, bind,
        Option.bind_eq_some_iff]
      by_cases hothers : reads.others s.passes.length = .other
      · simp [hothers]
      · simp [hothers, eq_comm]
  · simp [circleTurn, hhistory]

theorem circleTurn_firstWindowOnly {low hi : ℤ} (s s' : BackupState) (hs : FirstWindowOnly low hi s)
    (hturn : circleTurn shown reads step endtime s = some (.again s') ∨
      circleTurn shown reads step endtime s = some (.leave s')) : FirstWindowOnly low hi s' := by
  simp only [circleTurn_eq_some_iff, reduceCtorEq, and_false, Turn.leave.injEq, Turn.again.injEq,
    false_or, exists_false, or_false] at hturn
  rcases hturn with ⟨-, -, -, s₁, hquery, rfl⟩ | ⟨-, -, rfl⟩
  · obtain ⟨hpasses, hinserted, -, hlow, hhi, -⟩ := lcsTryQuery_frame hquery
    refine ⟨fun p hp => ?_, Or.inl rfl⟩
    simp only [lcsEndCircle, lcsUpdateTime, hpasses, List.mem_append, List.mem_singleton] at hp
    rcases hp with hp | rfl
    · exact hs.passes p hp
    · simp only [hinserted, hlow, hhi]
      exact hs.current
  · exact hs

/-- A loop whose first window takes the last call has one turn. -/
theorem oneTurn_iff {s₀ s : BackupState} (hpasses : s₀.passes = []) (hlow : s₀.low ≤ endtime)
    (hhi : endtime < s₀.hi) :
    (∃ fuel, whileLoop (circleTurn shown reads step endtime) fuel s₀ = some s) ↔
      reads.history 0 = .connected ∧ reads.history 1 = .connected ∧ reads.others 0 ≠ .other ∧
      ∃ s₁, lcsTryQuery shown (reads.cdr 0) s₀ = some s₁ ∧ s = lcsEndCircle shown step s₁ := by
  have hfirst : ∀ t, circleTurn shown reads step endtime s₀ = some t ↔
      reads.history 0 = .connected ∧ reads.others 0 ≠ .other ∧
        ∃ s₁, lcsTryQuery shown (reads.cdr 0) s₀ = some s₁ ∧
          t = .again (lcsEndCircle shown step s₁) := by
    intro t
    simp [circleTurn_eq_some_iff, hpasses, hlow, not_lt.mpr hlow]
  have hsecond : ∀ s₁ t, lcsTryQuery shown (reads.cdr 0) s₀ = some s₁ →
      (circleTurn shown reads step endtime (lcsEndCircle shown step s₁) = some t ↔
        reads.history 1 = .connected ∧ t = .leave (lcsEndCircle shown step s₁)) := by
    intro s₁ t hquery
    obtain ⟨hsame, -, -, -, hhi₁, -⟩ := lcsTryQuery_frame hquery
    have hlength : (lcsEndCircle shown step s₁).passes.length = 1 := by
      simp [lcsEndCircle, lcsUpdateTime, hsame, hpasses]
    have hout : endtime < (lcsEndCircle shown step s₁).low := hhi.trans_eq hhi₁.symm
    simp [circleTurn_eq_some_iff, hlength, hout, not_le.mpr hout]
  rw [exists_whileLoop_iff]
  constructor
  · rintro (hleave | ⟨s', hagain, hrest⟩)
    · obtain ⟨-, -, s₁, -, h⟩ := (hfirst _).mp hleave
      cases h
    · obtain ⟨h0, hothers, s₁, hquery, h⟩ := (hfirst _).mp hagain
      cases h
      rcases exists_whileLoop_iff.mp hrest with hleave | ⟨s', hagain', -⟩
      · obtain ⟨h1, h⟩ := (hsecond s₁ _ hquery).mp hleave
        cases h
        exact ⟨h0, h1, hothers, s₁, hquery, rfl⟩
      · cases ((hsecond s₁ _ hquery).mp hagain').2
  · rintro ⟨h0, h1, hothers, s₁, hquery, rfl⟩
    refine Or.inr ⟨_, (hfirst _).mpr ⟨h0, hothers, s₁, hquery, rfl⟩, ?_⟩
    exact exists_whileLoop_iff.mpr (Or.inl ((hsecond s₁ _ hquery).mpr ⟨h1, rfl⟩))

/-- What a run whose first window takes the last call needs, and its only pass. -/
theorem lcsStartBdata_oneWindow {cdr : CdrTable} {date inittime low hi : ℤ}
    (htimes : lcsGetInittime (cdr.day date) = some (inittime, endtime))
    (hrange : lcsGetRange shown step inittime = some (low, hi)) (hlow : low ≤ endtime)
    (hhi : endtime < hi) {passes : List Pass} :
    (∃ fuel, lcsStartBdata shown reads fuel step cdr date = some passes) ↔
      ∃ s₀ s₁, lcsInitCircle reads.init (startState low hi (cdr.day date)) = some s₀ ∧
        lcsTryQuery shown (reads.cdr 0) s₀ = some s₁ ∧
        reads.history 0 = .connected ∧ reads.history 1 = .connected ∧ reads.others 0 ≠ .other ∧
        reads.close ≠ .other ∧ passes = [⟨low, hi, s₁.inserted, s₁.created, s₁.exported⟩] := by
  have hrun : ∀ fuel, lcsStartBdata shown reads fuel step cdr date = some passes ↔
      ∃ s₀, lcsInitCircle reads.init (startState low hi (cdr.day date)) = some s₀ ∧
        ∃ s, whileLoop (circleTurn shown reads step endtime) fuel s₀ = some s ∧
          reads.close ≠ .other ∧ passes = s.passes := by
    intro fuel
    rw [lcsStartBdata, htimes]
    simp only [hrange, bind, Option.bind_some, Option.bind_eq_some_iff]
    by_cases hclose : reads.close = .other
    · simp [hclose]
    · simp [hclose, eq_comm]
  -- a turn of the first window notes its pass
  have hpass : ∀ s₀ s₁, lcsInitCircle reads.init (startState low hi (cdr.day date)) = some s₀ →
      lcsTryQuery shown (reads.cdr 0) s₀ = some s₁ → (lcsEndCircle shown step s₁).passes =
        [⟨low, hi, s₁.inserted, s₁.created, s₁.exported⟩] := by
    intro s₀ s₁ hstart hquery
    obtain ⟨hlow₀, hhi₀, hpasses₀, -⟩ := lcsInitCircle_frame hstart
    obtain ⟨hpasses, -, -, hlow₁, hhi₁, -⟩ := lcsTryQuery_frame hquery
    simp only [lcsEndCircle, lcsUpdateTime, hpasses, hpasses₀, hlow₁, hlow₀, hhi₁, hhi₀,
      List.nil_append]
  simp only [hrun]
  constructor
  · rintro ⟨fuel, s₀, hstart, s, hloop, hclose, rfl⟩
    obtain ⟨hlow₀, hhi₀, hpasses₀, -⟩ := lcsInitCircle_frame hstart
    obtain ⟨h0, h1, hothers, s₁, hquery, rfl⟩ :=
      (oneTurn_iff hpasses₀ (hlow₀ ▸ hlow) (hhi₀ ▸ hhi)).mp ⟨fuel, hloop⟩
    exact ⟨s₀, s₁, hstart, hquery, h0, h1, hothers, hclose, hpass s₀ s₁ hstart hquery⟩
  · rintro ⟨s₀, s₁, hstart, hquery, h0, h1, hothers, hclose, rfl⟩
    obtain ⟨hlow₀, hhi₀, hpasses₀, -⟩ := lcsInitCircle_frame hstart
    obtain ⟨fuel, hloop⟩ := (oneTurn_iff hpasses₀ (hlow₀ ▸ hlow) (hhi₀ ▸ hhi)).mpr
      ⟨h0, h1, hothers, s₁, hquery, rfl⟩
    exact ⟨fuel, s₀, hstart, _, hloop, hclose, (hpass s₀ s₁ hstart hquery).symm⟩

/-- In every run, ids are put in `linkedid_tmp` for the window around the first call only. -/
theorem lcsStartBdata_firstWindowOnly {fuel : ℕ} {cdr : CdrTable} {date inittime : ℤ}
    (htimes : lcsGetInittime (cdr.day date) = some (inittime, endtime)) {passes : List Pass}
    (hrun : lcsStartBdata shown reads fuel step cdr date = some passes) :
    step ≠ 0 ∧ ∀ p ∈ passes, p.inserted = [] ∨
      p.low = shown (inittime - inittime.tmod step) ∧
        p.hi = shown (inittime + step - inittime.tmod step) := by
  rw [lcsStartBdata, htimes] at hrun
  by_cases hstep : step = 0
  · simp [lcsGetRange, hstep] at hrun
  · simp only [lcsGetRange, if_neg hstep, bind, Option.bind_some] at hrun
    obtain ⟨s₀, hstart, hrun⟩ := Option.bind_eq_some_iff.mp hrun
    obtain ⟨s, hs, hpasses⟩ := Option.bind_eq_some_iff.mp hrun
    obtain ⟨hlow₀, hhi₀, hpasses₀, -⟩ := lcsInitCircle_frame hstart
    have hfirst : FirstWindowOnly _ _ s :=
      whileLoop_inv circleTurn_firstWindowOnly ⟨by simp [hpasses₀], Or.inr ⟨hlow₀, hhi₀⟩⟩ hs
    split_ifs at hpasses
    cases hpasses
    exact ⟨hstep, hfirst.passes⟩

/-- What is read through `p->con` serves the program as the connections would. -/
structure Connected (reads : ConnReads) : Prop where
  init : reads.init = .connected
  first : reads.history 0 = .connected ∧ reads.cdr 0 = .connected ∧ reads.others 0 ≠ .other
  last : reads.history 1 = .connected ∧ reads.close ≠ .other

/-- A run whose first window takes all calls exports them and ends. -/
theorem oneWindow_covers {cdr : CdrTable} {date inittime : ℤ}
    (htimes : lcsGetInittime (cdr.day date) = some (inittime, endtime)) (hstep : step ≠ 0)
    (hlow : shown (inittime - inittime.tmod step) ≤ inittime)
    (hhi : endtime < shown (inittime + step - inittime.tmod step)) (hreads : Connected reads) :
    ∃ fuel passes, lcsStartBdata shown reads fuel step cdr date = some passes ∧
      (∀ r ∈ cdr.day date, Covered passes r) ∧ NoneElsewhere passes := by
  have hrange : lcsGetRange shown step inittime = some
      (shown (inittime - inittime.tmod step), shown (inittime + step - inittime.tmod step)) :=
    if_neg hstep
  generalize shown (inittime - inittime.tmod step) = low at *
  generalize shown (inittime + step - inittime.tmod step) = hi at *
  have hin := (calls_in_window htimes low hi).mpr ⟨hlow, hhi⟩
  have hall : (cdr.day date).filter (fun r => low ≤ r.calldate ∧ r.calldate < hi) = cdr.day date :=
    List.filter_eq_self.mpr fun r hr => decide_eq_true (hin r hr)
  let ids := ((cdr.day date).map CallRecord.linkedid).dedup
  have hids : ∀ r ∈ cdr.day date, r.linkedid ∈ ids := fun r hr =>
    List.mem_dedup.mpr (List.mem_map_of_mem hr)
  let s₀ : BackupState :=
    ⟨low, hi, some (low / 60), cdr.day date, ids, [], ids, some (low / 60), none, []⟩
  have hstart : lcsInitCircle reads.init (startState low hi (cdr.day date)) = some s₀ := by
    rw [hreads.init, lcsInitCircle_start, hall]
  obtain ⟨s₁, hquery, hexported⟩ : ∃ s₁, lcsTryQuery shown .connected s₀ = some s₁ ∧ _ :=
    lcsTryQuery_exported rfl (cdr.key.sublist (List.filter_sublist.map _))
  obtain ⟨-, hinserted, hcreated, -⟩ := lcsTryQuery_frame hquery
  obtain ⟨fuel, hrun⟩ := (lcsStartBdata_oneWindow htimes hrange
    (hlow.trans (lcsGetInittime_le htimes)) hhi).mpr
      ⟨s₀, s₁, hstart, hreads.first.2.1 ▸ hquery, hreads.first.1, hreads.last.1, hreads.first.2.2,
        hreads.last.2, rfl⟩
  refine ⟨fuel, _, hrun, fun r hr => ?_, fun p hp dir rows hp' r hr q hq _ => ?_⟩
  · refine ⟨_, .head _, hin r hr, ?_, low / 60, _, hcreated, hexported, ?_⟩
    · rw [hinserted]
      exact hids r hr
    · rw [List.mem_mergeSort, List.mem_filter]
      exact ⟨hr, decide_eq_true (hids r hr)⟩
  · rw [List.mem_singleton] at hp hq
    subst hp hq
    obtain ⟨-, rfl⟩ := Prod.mk.inj (Option.some.inj (hexported.symm.trans hp'))
    rw [List.mem_mergeSort, List.mem_filter] at hr
    exact hin r hr.1

/-- A run that exports a call into its window's directory reads connections. -/
theorem covered_connected {cdr : CdrTable} {date inittime : ℤ}
    (htimes : lcsGetInittime (cdr.day date) = some (inittime, endtime)) {fuel : ℕ}
    {passes : List Pass} (hrun : lcsStartBdata shown reads fuel step cdr date = some passes)
    (hcovered : ∀ r ∈ cdr.day date, Covered passes r) :
    step ≠ 0 ∧ shown (inittime - inittime.tmod step) ≤ inittime ∧
      endtime < shown (inittime + step - inittime.tmod step) ∧ Connected reads := by
  obtain ⟨hstep, hfirst⟩ := lcsStartBdata_firstWindowOnly htimes hrun
  have hin : ∀ r ∈ cdr.day date, shown (inittime - inittime.tmod step) ≤ r.calldate ∧
      r.calldate < shown (inittime + step - inittime.tmod step) := by
    intro r hr
    obtain ⟨p, hp, hin, hinserted, -⟩ := hcovered r hr
    rcases hfirst p hp with hnil | ⟨hlow, hhi⟩
    · rw [hnil] at hinserted
      cases hinserted
    · rw [← hlow, ← hhi]
      exact hin
  obtain ⟨hlow, hhi⟩ := (calls_in_window htimes _ _).mp hin
  have hrange : lcsGetRange shown step inittime = some
      (shown (inittime - inittime.tmod step), shown (inittime + step - inittime.tmod step)) :=
    if_neg hstep
  obtain ⟨s₀, s₁, hstart, hquery, h0, h1, hothers, hclose, rfl⟩ := (lcsStartBdata_oneWindow htimes
    hrange (hlow.trans (lcsGetInittime_le htimes)) hhi).mp ⟨fuel, hrun⟩
  -- the first call is exported in the only pass
  obtain ⟨⟨r, hr, -⟩, -⟩ := lcsGetInittime_spec htimes
  obtain ⟨p, hp, -, hinserted, dir, rows, -, hexported, -⟩ := hcovered r hr
  rw [List.mem_singleton] at hp
  subst hp
  obtain ⟨-, -, -, hnone, hnil⟩ := lcsInitCircle_frame hstart
  obtain ⟨-, hsame, -, -, -, hkept⟩ := lcsTryQuery_frame hquery
  have hinit : reads.init = .connected := by
    by_contra hne
    rw [hsame, hnil hne] at hinserted
    cases hinserted
  have hcdr : reads.cdr 0 = .connected := by
    by_contra hne
    rw [hkept hne, hnone] at hexported
    cases hexported
  exact ⟨hstep, hlow, hhi, hinit, ⟨h0, hcdr, hothers⟩, h1, hclose⟩

end Run

/-- The windows are covered exactly when all calls of the day lie in the first, as it is shown, and
what is read of the variables that are gone are the connections. -/
theorem window_coverage_iff (shown : ℤ → ℤ) (reads : ConnReads) (step : ℤ) (cdr : CdrTable)
    (date : ℤ) :
    (∃ fuel passes, lcsStartBdata shown reads fuel step cdr date = some passes ∧
      (∀ r ∈ cdr.day date, Covered passes r) ∧ NoneElsewhere passes) ↔
    ∀ inittime endtime, lcsGetInittime (cdr.day date) = some (inittime, endtime) →
      step ≠ 0 ∧ shown (inittime - inittime.tmod step) ≤ inittime ∧
        endtime < shown (inittime + step - inittime.tmod step) ∧ Connected reads := by
  constructor
  · rintro ⟨fuel, passes, hrun, hcovered, -⟩ inittime endtime htimes
    exact covered_connected htimes hrun hcovered
  · intro hcond
    cases htimes : lcsGetInittime (cdr.day date) with
    | none =>
      refine ⟨0, [], ?_, ?_, ?_⟩
      · rw [lcsStartBdata, htimes]
      · rw [lcsGetInittime_eq_none.mp htimes]
        simp
      · intro p hp
        cases hp
    | some times =>
      obtain ⟨inittime, endtime⟩ := times
      obtain ⟨hstep, hlow, hhi, hreads⟩ := hcond inittime endtime htimes
      exact oneWindow_covers htimes hstep hlow hhi hreads

/-- The connections, as if their variables were still there. -/
def keptReads : ConnReads :=
  ⟨.connected, fun _ => .connected, fun _ => .connected, fun _ => .connected, .connected⟩

/-- Two calls, the second in the minute after the first. -/
def twoCalls : CdrTable := ⟨[⟨1, [97], 10⟩, ⟨2, [98], 90⟩], by decide⟩

/-- The run ends after two passes; the second call is put in `linkedid_tmp` by none, and the pass of
its window has no directory and writes no file. In summer the window of the first call starts an
hour after it, and a connection that is gone leaves the run without outcome. -/
theorem second_window_missed :
    lcsStartBdata id keptReads 3 60 twoCalls 0 =
      some [⟨0, 60, [[97]], some 0, some (0, [⟨1, [97], 10⟩])⟩, ⟨60, 120, [], none, none⟩] ∧
    (∀ fuel passes, lcsStartBdata id keptReads fuel 60 twoCalls 0 = some passes →
      ¬ Covered passes ⟨2, [98], 90⟩) ∧
    (∀ fuel passes, lcsStartBdata (· + 3600) keptReads fuel 60 twoCalls 0 = some passes →
      ¬ Covered passes ⟨1, [97], 10⟩) ∧
    ∀ fuel, lcsStartBdata id { keptReads with init := .other } fuel 60 twoCalls 0 = none := by
  have htimes : lcsGetInittime (twoCalls.day 0) = some (10, 90) := by decide
  refine ⟨by decide +kernel, ?_, ?_, fun fuel => rfl⟩
  · rintro fuel passes hrun ⟨p, hp, hin, hinserted, _⟩
    rcases (lcsStartBdata_firstWindowOnly htimes hrun).2 p hp with hnil | ⟨_, hhi⟩
    · rw [hnil] at hinserted
      cases hinserted
    · rw [hhi] at hin
      exact absurd hin.2 (by decide)
  · rintro fuel passes hrun ⟨p, hp, hin, hinserted, _⟩
    rcases (lcsStartBdata_firstWindowOnly htimes hrun).2 p hp with hnil | ⟨hlow, _⟩
    · rw [hnil] at hinserted
      cases hinserted
    · rw [hlow] at hin
      exact absurd hin.1 (by decide)

end MemoryLeak.Cluster
