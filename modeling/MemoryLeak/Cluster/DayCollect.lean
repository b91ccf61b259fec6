import MemoryLeak.Cluster.Collect

/-!
# Day collection

`lcs_hcollect_ana` of the day programs: the hours without an analysis file are analysed, the day's
own file is removed if there was such an hour, and the files of all hours are appended
to it. The program of counting rows then collects the day's file.
-/
namespace MemoryLeak.Cluster
open MemoryLeak.CBytes MemoryLeak.CText MemoryLeak.GroupBy LcsMergeCounting

variable {ι : Type} [DecidableEq ι]

/-- The analysis files of a day: its own and those of its hour directories. -/
structure DayFiles (ι : Type) where
  dest : Option Bytes
  hour : ι → Option Bytes

/-- `cat src >> dest`. -/
def lcsHcollectSum (dest src : Option Bytes) : Option Bytes := some (dest.getD [] ++ src.getD [])

/-- The hour files once the subtasks of the hours without one have ended; `gen` is what
they leave. -/
def afterSubtasks (gen : ι → Option Bytes) (sub : List ι) (hour : ι → Option Bytes) :
    ι → Option Bytes :=
  fun h => if h ∈ sub ∧ hour h = none then gen h else hour h

/-- The body that the day programs share. -/
def concatHours (gen : ι → Option Bytes) (sub : List ι) (s : DayFiles ι) : DayFiles ι :=
  let count := sub.countP fun h => (s.hour h).isNone
  let hour := afterSubtasks gen sub s.hour
  let dest := if count ≠ 0 then none else s.dest
  ⟨sub.foldl (fun dest h => lcsHcollectSum dest (hour h)) dest, hour⟩

/-- `lcs_hcollect_ana` of `A_000006_day`. -/
def lcsHcollectAna006 (gen : ι → Option Bytes) (sub : List ι) (s : DayFiles ι) : DayFiles ι :=
  concatHours gen sub s

/-- `lcs_hcollect_ana` of `A_000008_day`. -/
def lcsHcollectAna008 (gen : ι → Option Bytes) (sub : List ι) (s : DayFiles ι) : DayFiles ι :=
  concatHours gen sub s

/-- `lcs_hcollect_ana` of `A_000009_day`. -/
def lcsHcollectAna009 (gen : ι → Option Bytes) (sub : List ι) (s : DayFiles ι) : DayFiles ι :=
  concatHours gen sub s

/-- The part of `lcs_hcollect_ana` of `A_000005_day` behind the concatenation. -/
def collectDay (s : DayFiles ι) : Option (DayFiles ι) :=
  match s.dest with
  | none => some s
  | some file => do
    let txt ← fileText file
    if text txt = [] then some s
    else do
      let written ← lcsHcollect005Sum txt
      some { s with dest := written.or (some file) }

/-- `lcs_hcollect_ana` of `A_000005_day`. -/
def lcsHcollectAna005 (gen : ι → Option Bytes) (sub : List ι) (s : DayFiles ι) :
    Option (DayFiles ι) :=
  collectDay (concatHours gen sub s)

/-! ### Concatenation -/

/-- The hour files one after the other. -/
def hourText (hour : ι → Option Bytes) (sub : List ι) : Bytes :=
  sub.flatMap fun h => (hour h).getD []

omit [DecidableEq ι] in
theorem foldl_cat (hour : ι → Option Bytes) {sub : List ι} {dest : Option Bytes}
    (hdest : sub = [] → dest.isSome) :
    sub.foldl (fun dest h => lcsHcollectSum dest (hour h)) dest =
      some (dest.getD [] ++ hourText hour sub) := by
  induction sub generalizing dest with
  | nil =>
    obtain ⟨file, rfl⟩ := Option.isSome_iff_exists.mp (hdest rfl)
    simp [hourText]
  | cons h sub ih =>
    rw [List.foldl_cons, ih fun _ => rfl]
    simp [lcsHcollectSum, hourText]

/-- The day's file when the concatenation starts. -/
def keptFile (sub : List ι) (s : DayFiles ι) : Option Bytes :=
  if sub.countP (fun h => (s.hour h).isNone) ≠ 0 then none else s.dest

theorem concatHours_eq (gen : ι → Option Bytes) {sub : List ι} {s : DayFiles ι}
    (hdest : sub = [] → (keptFile sub s).isSome) :
    concatHours gen sub s = ⟨some ((keptFile sub s).getD [] ++
      hourText (afterSubtasks gen sub s.hour) sub), afterSubtasks gen sub s.hour⟩ :=
  congrArg (DayFiles.mk · _) (foldl_cat _ hdest)

section Again

variable {gen : ι → Option Bytes} {sub : List ι} {s : DayFiles ι}
  (hexist : ∀ h ∈ sub, (afterSubtasks gen sub s.hour h).isSome)

include hexist

/-- A run after one that left every hour file keeps the day's file. -/
theorem keptFile_again (file : Option Bytes) :
    keptFile sub ⟨file, afterSubtasks gen sub s.hour⟩ = file := by
  rw [keptFile, List.countP_eq_zero.mpr, if_neg (by simp)]
  intro h hh
  simpa using Option.isSome_iff_ne_none.mp (hexist h hh)

theorem afterSubtasks_again (gen' : ι → Option Bytes) :
    afterSubtasks gen' sub (afterSubtasks gen sub s.hour) = afterSubtasks gen sub s.hour := by
  funext h
  have hsome : ¬ (h ∈ sub ∧ afterSubtasks gen sub s.hour h = none) :=
    fun hh => Option.isSome_iff_ne_none.mp (hexist h hh.1) hh.2
  rw [afterSubtasks, if_neg hsome]

/-- It appends the hour files again. -/
theorem concatHours_again (gen' : ι → Option Bytes) (file : Bytes) :
    concatHours gen' sub ⟨some file, afterSubtasks gen sub s.hour⟩ =
      ⟨some (file ++ hourText (afterSubtasks gen sub s.hour) sub),
        afterSubtasks gen sub s.hour⟩ := by
  rw [concatHours_eq gen' (fun _ => by rw [keptFile_again hexist]; rfl), keptFile_again hexist,
    afterSubtasks_again hexist]
  rfl

end Again

/-- A day without hours and without a file stays so. -/
theorem concatHours_nothing (gen : ι → Option Bytes) {s : DayFiles ι} (hdest : s.dest = none) :
    (concatHours gen [] s).dest = none := hdest

/-- The programs that only append: the second run keeps the file exactly when there is
nothing to append. -/
theorem concatHours_twice (gen gen' : ι → Option Bytes) {sub : List ι} {s : DayFiles ι}
    (hexist : ∀ h ∈ sub, (afterSubtasks gen sub s.hour h).isSome) :
    (concatHours gen' sub (concatHours gen sub s)).dest = (concatHours gen sub s).dest ↔
      hourText (afterSubtasks gen sub s.hour) sub = [] := by
  by_cases hdest : sub = [] → (keptFile sub s).isSome
  · rw [concatHours_eq gen hdest, concatHours_again hexist gen']
    simp
  · obtain ⟨rfl, hnone⟩ := Classical.not_imp.mp hdest
    have hfirst := concatHours_nothing gen (Option.not_isSome_iff_eq_none.mp hnone)
    rw [hfirst, concatHours_nothing gen' hfirst]
    simp [hourText]

/-! ### Counting rows -/

omit [DecidableEq ι] in
/-- Collecting a day file of rows writes the sums by key. -/
theorem collectDay_spec {s : DayFiles ι} {file : Bytes} {rows : List LcsMergeCounting}
    (hdest : s.dest = some file) (hrows : RowText file rows) (hsize : file.length < 4294967295) :
    ∃ out : List LcsMergeCounting, IsGroupSum (rows.map pair) (out.map pair) ∧
      collectDay s = some { s with dest := some (out.flatMap line) } := by
  have hlen := hrows.length_le
  obtain ⟨out, hgroup, hrun⟩ := lcsHcollect005Sum_spec hrows (by omega)
  refine ⟨out, hgroup, ?_⟩
  have hnil := merged_eq_nil_iff hgroup
  by_cases htext : text file = []
  · have hempty : rows = [] := by
      have h := hrows.rowsOfTokens_eq
      rw [strtoks, htext] at h
      exact (Option.some.inj h).symm
    rw [hempty] at hrows
    rw [hnil.mpr hempty, collectDay, hdest]
    simp only [fileText_eq hsize, bind, Option.bind_some, if_pos htext, List.flatMap_nil]
    rw [← hrows.eq_nil, ← hdest]
  · have hne : rows ≠ [] := by
      rintro rfl
      exact htext (by rw [hrows.eq_nil]; rfl)
    simp only [collectDay, hdest, fileText_eq hsize, if_neg htext, hrun, bind, Option.bind_some,
      fileOf, List.isEmpty_iff, if_neg (mt hnil.mp hne), Option.some_or]

/-- Counters sum to zero for each key exactly when their values sum to a multiple of `2 ^ 32`. -/
theorem totalOf_eq_zero_iff (rows : List LcsMergeCounting) :
    (∀ k, totalOf (rows.map pair) k = 0) ↔
      ∀ r ∈ rows, ∀ c, 2 ^ 32 ∣ columnSum (rows.filter fun x => x.key = r.key) c := by
  have hkey : ∀ k c, totalOf (rows.map pair) k c = 0 ↔
      2 ^ 32 ∣ columnSum (rows.filter fun x => x.key = k) c := by
    intro k c
    rw [totalOf_pair, ← BitVec.toInt_inj, toInt_sum, show (0 : BitVec 32).toInt = 0 from rfl]
    exact ⟨fun h => Int.dvd_of_bmod_eq_zero h, fun h => Int.bmod_eq_zero_of_dvd h⟩
  constructor
  · intro h r _ c
    rw [← hkey, h]
    rfl
  · intro h k
    by_cases hk : ∃ r ∈ rows, r.key = k
    · obtain ⟨r, hr, rfl⟩ := hk
      funext c
      exact (hkey r.key c).mpr (h r hr c)
    · refine totalOf_eq_zero fun a ha => ?_
      obtain ⟨r, hr, rfl⟩ := List.mem_map.mp ha
      exact fun heq => hk ⟨r, hr, heq⟩

omit [DecidableEq ι] in
/-- Collecting the rows of the hours again on top of a file that has them. -/
theorem collectDay_twice (hour : ι → Option Bytes) {file again : Bytes}
    {rows out hours : List LcsMergeCounting} (hfile : RowText file (rows ++ hours))
    (hgroup : IsGroupSum ((rows ++ hours).map pair) (out.map pair)) (hagain : RowText again hours)
    (hsize : (out.flatMap line ++ again).length < 4294967295) :
    ∃ out', collectDay ⟨some (out.flatMap line ++ again), hour⟩ = some ⟨some out', hour⟩ ∧
      (out' = out.flatMap line ↔
        ∀ r ∈ hours, ∀ c, 2 ^ 32 ∣ columnSum (hours.filter fun x => x.key = r.key) c) := by
  have hlines : RowText (out.flatMap line) out := hfile.merged hgroup
  obtain ⟨out', hgroup', hrun⟩ := collectDay_spec (s := ⟨some (out.flatMap line ++ again), hour⟩)
    rfl (hlines.append hagain) hsize
  refine ⟨out'.flatMap line, hrun, ?_⟩
  have hlines' : RowText (out'.flatMap line) out' := (hlines.append hagain).merged hgroup'
  have htext : out'.flatMap line = out.flatMap line ↔ out' = out :=
    ⟨fun h => hlines'.unique (h ▸ hlines), fun h => h ▸ rfl⟩
  rw [List.map_append] at hgroup'
  have hkeys : ∀ a ∈ hours.map pair, ∃ b ∈ out.map pair, b.1 = a.1 := by
    intro a ha
    refine (hgroup.keys a.1).mpr ⟨a, ?_, rfl⟩
    rw [List.map_append]
    exact List.mem_append_right _ ha
  rw [htext, ← totalOf_eq_zero_iff, ← hgroup'.append_eq_iff hgroup.increasing hkeys]
  exact (List.map_injective_iff.mpr pair_injective).eq_iff.symm

/-- What a run appends to its file leaves it below 4 GiB, the size that `unsigned int` holds. -/
def SizeFits (gen : ι → Option Bytes) (sub : List ι) (s : DayFiles ι) : Prop :=
  ((keptFile sub s).getD [] ++ hourText (afterSubtasks gen sub s.hour) sub).length < 4294967295

/-- A run of the program of counting rows over files of rows. -/
theorem lcsHcollectAna005_spec (gen : ι → Option Bytes) {sub : List ι} {s : DayFiles ι}
    (hsize : SizeFits gen sub s) (hdest : sub = [] → (keptFile sub s).isSome)
    {rows : ι → List LcsMergeCounting}
    (hrows : ∀ h ∈ sub, RowText ((afterSubtasks gen sub s.hour h).getD []) (rows h))
    (hold : ∀ file ∈ s.dest, ∃ old, RowText file old) :
    ∃ (file : Bytes) (old out : List LcsMergeCounting), RowText file (old ++ sub.flatMap rows) ∧
      IsGroupSum ((old ++ sub.flatMap rows).map pair) (out.map pair) ∧
      lcsHcollectAna005 gen sub s =
        some ⟨some (out.flatMap line), afterSubtasks gen sub s.hour⟩ := by
  obtain ⟨old, hkept⟩ : ∃ old, RowText ((keptFile sub s).getD []) old := by
    unfold keptFile
    split_ifs
    · exact ⟨[], .nil⟩
    · cases hfile : s.dest with
      | none => exact ⟨[], .nil⟩
      | some file => exact hold file hfile
  have hfile := hkept.append (RowText.flatMap hrows)
  obtain ⟨out, hgroup, hrun⟩ := collectDay_spec
    (s := ⟨some ((keptFile sub s).getD [] ++ hourText (afterSubtasks gen sub s.hour) sub),
      afterSubtasks gen sub s.hour⟩) rfl hfile hsize
  refine ⟨_, old, out, hfile, hgroup, ?_⟩
  rw [lcsHcollectAna005, concatHours_eq gen hdest]
  exact hrun

/-- A day's file of rows stays one, in every run over hour files of rows. -/
theorem lcsHcollectAna005_rowText (gen : ι → Option Bytes) {sub : List ι} {s s₁ : DayFiles ι}
    (hrows : ∀ h ∈ sub, ∃ rows, RowText ((afterSubtasks gen sub s.hour h).getD []) rows)
    (hold : ∀ file ∈ s.dest, ∃ old, RowText file old) (hsize : SizeFits gen sub s)
    (hrun : lcsHcollectAna005 gen sub s = some s₁) :
    ∀ file ∈ s₁.dest, ∃ rows, RowText file rows := by
  choose! rows hrows using hrows
  by_cases hdest : sub = [] → (keptFile sub s).isSome
  · obtain ⟨file, old, out, hfile, hgroup, hspec⟩ := lcsHcollectAna005_spec gen hsize hdest hrows
      hold
    rw [hspec, Option.some.injEq] at hrun
    subst hrun
    intro file hfile'
    cases hfile'
    exact ⟨out, hfile.merged hgroup⟩
  · obtain ⟨rfl, hnone⟩ := Classical.not_imp.mp hdest
    have hfirst := concatHours_nothing gen (Option.not_isSome_iff_eq_none.mp hnone)
    simp only [lcsHcollectAna005, collectDay, hfirst, Option.some.injEq] at hrun
    rw [← hrun, hfirst]
    simp

/-- The program of counting rows: the second run keeps the file exactly when the rows of the hours
add nothing to it. -/
theorem lcsHcollectAna005_twice (gen gen' : ι → Option Bytes) {sub : List ι} {s : DayFiles ι}
    (hexist : ∀ h ∈ sub, (afterSubtasks gen sub s.hour h).isSome)
    {rows : ι → List LcsMergeCounting}
    (hrows : ∀ h ∈ sub, ∀ file ∈ afterSubtasks gen sub s.hour h, RowText file (rows h))
    (hold : ∀ file ∈ s.dest, ∃ old, RowText file old) (hsize : SizeFits gen sub s) :
    ∃ s₁, lcsHcollectAna005 gen sub s = some s₁ ∧ (SizeFits gen' sub s₁ →
      ∃ s₂, lcsHcollectAna005 gen' sub s₁ = some s₂ ∧
        (s₂.dest = s₁.dest ↔ ∀ r ∈ sub.flatMap rows, ∀ c,
          2 ^ 32 ∣ columnSum ((sub.flatMap rows).filter fun x => x.key = r.key) c)) := by
  have hhours : ∀ h ∈ sub, RowText ((afterSubtasks gen sub s.hour h).getD []) (rows h) := by
    intro h hh
    obtain ⟨file, hfile⟩ := Option.isSome_iff_exists.mp (hexist h hh)
    rw [hfile, Option.getD_some]
    exact hrows h hh file hfile
  by_cases hdest : sub = [] → (keptFile sub s).isSome
  · obtain ⟨file, old, out, hfile, hgroup, hrun⟩ :=
      lcsHcollectAna005_spec gen hsize hdest hhours hold
    refine ⟨_, hrun, fun hsize' => ?_⟩
    rw [SizeFits, keptFile_again hexist, afterSubtasks_again hexist gen', Option.getD_some]
      at hsize'
    obtain ⟨out', hrun', hsame⟩ := collectDay_twice (afterSubtasks gen sub s.hour) hfile hgroup
      (RowText.flatMap hhours) hsize'
    refine ⟨⟨some out', afterSubtasks gen sub s.hour⟩, ?_, ?_⟩
    · rw [lcsHcollectAna005, concatHours_again hexist gen']
      exact hrun'
    · rw [Option.some.injEq]
      exact hsame
  · obtain ⟨rfl, hnone⟩ := Classical.not_imp.mp hdest
    have hfirst := concatHours_nothing gen (Option.not_isSome_iff_eq_none.mp hnone)
    have hsecond := concatHours_nothing gen' hfirst
    refine ⟨concatHours gen [] s, ?_, fun _ => ⟨concatHours gen' [] (concatHours gen [] s), ?_, ?_⟩⟩
    · simp only [lcsHcollectAna005, collectDay, hfirst]
    · simp only [lcsHcollectAna005, collectDay, hsecond]
    · rw [hfirst, hsecond]
      simp

/-- A second run with every hour file there: the programs that append keep the day's file
exactly when the hour files are empty; the one that collects counting rows, where it reads
files below 4 GiB, exactly when the counters of the rows of the hours sum to zero, as `int`s, for
each date and hour. -/
theorem second_run_keeps_day_iff (gen gen' : ι → Option Bytes) (sub : List ι) (s : DayFiles ι)
    (hexist : ∀ h ∈ sub, (afterSubtasks gen sub s.hour h).isSome) :
    (∀ run ∈ [lcsHcollectAna006, lcsHcollectAna008, lcsHcollectAna009 (ι := ι)],
      (run gen' sub (run gen sub s)).dest = (run gen sub s).dest ↔
        hourText (afterSubtasks gen sub s.hour) sub = []) ∧
    ∀ rows : ι → List LcsMergeCounting,
      (∀ h ∈ sub, ∀ file ∈ afterSubtasks gen sub s.hour h, RowText file (rows h)) →
      (∀ file ∈ s.dest, ∃ old, RowText file old) → SizeFits gen sub s →
      ∃ s₁, lcsHcollectAna005 gen sub s = some s₁ ∧ (SizeFits gen' sub s₁ →
        ∃ s₂, lcsHcollectAna005 gen' sub s₁ = some s₂ ∧
          (s₂.dest = s₁.dest ↔ ∀ r ∈ sub.flatMap rows, ∀ c,
            2 ^ 32 ∣ columnSum ((sub.flatMap rows).filter fun x => x.key = r.key) c)) := by
  refine ⟨fun run hrun => ?_, fun rows hrows hold hsize =>
    lcsHcollectAna005_twice gen gen' hexist hrows hold hsize⟩
  simp only [List.mem_cons, List.not_mem_nil, or_false] at hrun
  rcases hrun with rfl | rfl | rfl
  · exact concatHours_twice gen gen' hexist
  · exact concatHours_twice gen gen' hexist
  · exact concatHours_twice gen gen' hexist

/-- A row that counts `n` calls. -/
def callRow (n : BitVec 32) : LcsMergeCounting :=
  ⟨⟨[50], by decide, by decide⟩, ⟨[49], by decide, by decide⟩, n, 0, 0, 0, 0, 0, 0, 0⟩

/-- A day without a file, with one hour, whose file counts one call. -/
def oneCall : DayFiles Unit := ⟨none, fun _ => some (callRow 1).line⟩

theorem second_run_keeps_day_iff_sample :
    (∀ h ∈ [()], (afterSubtasks (fun _ => none) [()] oneCall.hour h).isSome) ∧
    (∀ run ∈ [lcsHcollectAna006, lcsHcollectAna008, lcsHcollectAna009 (ι := Unit)],
      (run (fun _ => none) [()] (run (fun _ => none) [()] oneCall)).dest =
          (run (fun _ => none) [()] oneCall).dest ↔
        hourText (afterSubtasks (fun _ => none) [()] oneCall.hour) [()] = []) ∧
    ∀ rows : Unit → List LcsMergeCounting,
      (∀ h ∈ [()], ∀ file ∈ afterSubtasks (fun _ => none) [()] oneCall.hour h,
        RowText file (rows h)) →
      (∀ file ∈ oneCall.dest, ∃ old, RowText file old) → SizeFits (fun _ => none) [()] oneCall →
      ∃ s₁, lcsHcollectAna005 (fun _ => none) [()] oneCall = some s₁ ∧
        (SizeFits (fun _ => none) [()] s₁ →
        ∃ s₂, lcsHcollectAna005 (fun _ => none) [()] s₁ = some s₂ ∧
          (s₂.dest = s₁.dest ↔ ∀ r ∈ [()].flatMap rows, ∀ c,
            2 ^ 32 ∣ columnSum (([()].flatMap rows).filter fun x => x.key = r.key) c)) := by
  have hexist : ∀ h ∈ [()], (afterSubtasks (fun _ => none) [()] oneCall.hour h).isSome :=
    fun _ _ => rfl
  exact ⟨hexist, second_run_keeps_day_iff (fun _ => none) (fun _ => none) [()] oneCall hexist⟩

/-- The second run doubles the day's file, or its count. -/
theorem second_run_doubles_day :
    (∀ run ∈ [lcsHcollectAna006, lcsHcollectAna008, lcsHcollectAna009 (ι := Unit)],
      (run (fun _ => none) [()] oneCall).dest = some (callRow 1).line ∧
      (run (fun _ => none) [()] (run (fun _ => none) [()] oneCall)).dest =
        some ((callRow 1).line ++ (callRow 1).line)) ∧
    (lcsHcollectAna005 (fun _ => none) [()] oneCall).map DayFiles.dest =
      some (some (callRow 1).line) ∧
    ((lcsHcollectAna005 (fun _ => none) [()] oneCall).bind
      (lcsHcollectAna005 (fun _ => none) [()])).map DayFiles.dest = some (some (callRow 2).line) ∧
    (callRow 2).line ≠ (callRow 1).line := by
  decide +kernel

end MemoryLeak.Cluster
