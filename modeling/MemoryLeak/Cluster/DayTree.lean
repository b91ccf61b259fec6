import MemoryLeak.Cluster.ReportPrograms

/-!
# The tree of a day

The program of a day runs with a thread for each hour without a file, and each thread with the
programs of that hour. Whatever turns the threads take, the files in the end are those that the
hours leave one after the other.
-/
namespace MemoryLeak.Cluster.Reports
open MemoryLeak.CBytes MemoryLeak.CText MemoryLeak.KeyedText MemoryLeak.SlotArray
open MemoryLeak.ForkJoin MemoryLeak.Cluster.Configs MemoryLeak.Runs

/-! ### Paths -/

/-- The paths under a directory. -/
def below (dir : Bytes) : Set Bytes := {p | dir ++ [47] <+: p}

theorem mem_below_iff {dir p : Bytes} : p ∈ below dir ↔ dir ++ [47] <+: p := Iff.rfl

/-- A name of a directory or a report: plain, and no path. -/
def Name (s : Bytes) : Prop := Plain s ∧ (47 : UInt8) ∉ s

instance (s : Bytes) : Decidable (Name s) := inferInstanceAs (Decidable (_ ∧ _))

theorem joinPath_cons_cons (a b : Bytes) (l : List Bytes) :
    joinPath (a :: b :: l) = a ++ 47 :: joinPath (b :: l) := by
  rw [joinPath, joinPath, List.intercalate_cons_cons, List.append_assoc, List.singleton_append]

theorem joinPath_singleton (a : Bytes) : joinPath [a] = a := List.intercalate_singleton

theorem inDir_one (dir ana : Bytes) (extension : String) :
    inDir [dir] ana extension = dir ++ 47 :: (ana ++ ascii extension) := by
  rw [inDir, List.singleton_append, joinPath_cons_cons, joinPath_singleton]

theorem inDir_two (dir sub ana : Bytes) (extension : String) :
    inDir [dir, sub] ana extension = joinPath [dir, sub] ++ 47 :: (ana ++ ascii extension) := by
  simp only [inDir, List.cons_append, List.nil_append, joinPath_cons_cons, joinPath_singleton,
    List.append_assoc]

theorem mem_below (dir rest : Bytes) : dir ++ 47 :: rest ∈ below dir :=
  ⟨rest, by rw [List.append_assoc, List.singleton_append]⟩

theorem inDir_mem_below (dir ana : Bytes) (extension : String) :
    inDir [dir] ana extension ∈ below dir := by
  rw [inDir_one]
  exact mem_below dir _

theorem below_subset (dir sub : Bytes) : below (joinPath [dir, sub]) ⊆ below dir := by
  rintro p ⟨rest, rfl⟩
  rw [joinPath_cons_cons, joinPath_singleton, List.append_assoc, List.append_assoc]
  exact mem_below dir _

/-- Words that end at their first slash. -/
theorem eq_of_prefix_slash {x y : Bytes} (hx : (47 : UInt8) ∉ x) (hy : (47 : UInt8) ∉ y)
    (h : x ++ [47] <+: y ++ [47]) : x = y := by
  induction x generalizing y with
  | nil =>
    cases y with
    | nil => rfl
    | cons b y =>
      obtain ⟨rfl, -⟩ := List.cons_prefix_cons.mp h
      exact absurd List.mem_cons_self hy
  | cons a x ih =>
    cases y with
    | nil =>
      obtain ⟨rfl, -⟩ := List.cons_prefix_cons.mp h
      exact absurd List.mem_cons_self hx
    | cons b y =>
      obtain ⟨rfl, hrest⟩ := List.cons_prefix_cons.mp h
      have hx' : (47 : UInt8) ∉ x := fun h => hx (List.mem_cons_of_mem _ h)
      have hy' : (47 : UInt8) ∉ y := fun h => hy (List.mem_cons_of_mem _ h)
      rw [ih hx' hy' hrest]

/-- Two directories of one have no path in common. -/
theorem below_disjoint {x y : Bytes} (hx : (47 : UInt8) ∉ x) (hy : (47 : UInt8) ∉ y) (h : x ≠ y)
    (dir : Bytes) : Disjoint (below (joinPath [dir, x])) (below (joinPath [dir, y])) := by
  have heq : ∀ z, joinPath [dir, z] ++ [47] = dir ++ 47 :: (z ++ [47]) := fun z => by
    rw [joinPath_cons_cons, joinPath_singleton, List.append_assoc, List.cons_append]
  rw [Set.disjoint_left]
  rintro p hpx hpy
  rw [mem_below_iff, heq] at hpx hpy
  rcases List.prefix_or_prefix_of_prefix hpx hpy with hxy | hyx
  · rw [List.prefix_append_right_inj, List.cons_prefix_cons] at hxy
    exact h (eq_of_prefix_slash hx hy hxy.2)
  · rw [List.prefix_append_right_inj, List.cons_prefix_cons] at hyx
    exact h (eq_of_prefix_slash hy hx hyx.2).symm

/-- A file of a directory is in none of its directories. -/
theorem inDir_notMem_below {ana : Bytes} {extension : String}
    (hana : (47 : UInt8) ∉ ana ++ ascii extension) (dir sub : Bytes) :
    inDir [dir] ana extension ∉ below (joinPath [dir, sub]) := by
  intro h
  rw [mem_below_iff, inDir_one, joinPath_cons_cons, joinPath_singleton, List.append_assoc,
    List.prefix_append_right_inj, List.cons_append, List.cons_prefix_cons] at h
  exact hana (h.2.subset (by simp))

/-! ### Single acts -/

section Acts

variable {S : Set Bytes} {m : Files} {path : Bytes} {α : Type}

@[simp] theorem wp_readFile {Q : Files → Option Bytes → Prop} :
    (readFile path).wp S m Q ↔ path ∈ S ∧ Q m (m path) := Iff.rfl

@[simp] theorem wp_writeFile {Q : Files → Unit → Prop} (file : Option Bytes) :
    (writeFile path file).wp S m Q ↔ path ∈ S ∧ Q (Function.update m path file) () := Iff.rfl

theorem wp_sprintf {size : ℕ} {s : Bytes} (h : s.length < size) {Q : Files → Bytes → Prop} :
    (sprintf size s).wp S m Q ↔ Q m s := by
  rw [sprintf, if_pos h]
  rfl

/-- The text of a file that is not too long for `unsigned int`. -/
theorem wp_lcsFileText {file : Bytes} (hfile : m path = some file)
    (hsmall : file.length + 1 < 2 ^ 32) {Q : Files → Option Bytes → Prop} :
    (lcsFileText path).wp S m Q ↔ path ∈ S ∧ Q m (some file) := by
  have hmod : file.length % 2 ^ 32 = file.length := Nat.mod_eq_of_lt (by omega)
  rw [lcsFileText, Proc.wp_bind, wp_readFile, hfile]
  simp only [hmod, if_pos hsmall, List.take_length, Proc.wp_pure]

theorem wp_lcsFileText_none (hfile : m path = none) {Q : Files → Option Bytes → Prop} :
    (lcsFileText path).wp S m Q ↔ path ∈ S ∧ Q m none := by
  rw [lcsFileText, Proc.wp_bind, wp_readFile, hfile]
  rfl

/-- A program that is installed is run. -/
theorem wp_lcsBashCmd {process arg rest : Bytes} {main : Bytes → Prog Unit} {size : ℕ}
    (hsize : process.length + arg.length + rest.length + 1 < size) (hprocess : Plain process)
    (harg : Plain arg) {Q : Files → Unit → Prop} :
    (lcsBashCmd [(process, main)] size process arg rest).wp S m Q ↔ (main arg).wp S m Q := by
  have hlen : (process ++ 32 :: (arg ++ rest)).length < size := by
    simp only [List.length_append, List.length_cons]
    omega
  rw [lcsBashCmd, Proc.wp_bind, wp_sprintf hlen, if_pos ⟨hprocess, harg⟩]
  simp only [List.lookup_cons_self]

end Acts

/-! ### Configurations -/

/-- A value that comes back from every configuration: a word without a colon. -/
def Clean (v : Bytes) : Prop := ∀ c ∈ v, KeyedText.blank c = false ∧ c ≠ 58 ∧ c ≠ 0

theorem Plain.clean {s : Bytes} (h : Plain s) : Clean s := by
  intro c hc
  have hplain := h.2 c hc
  refine ⟨?_, ?_, ?_⟩
  · by_contra hblank
    simp only [KeyedText.blank, Bool.not_eq_false, Bool.or_eq_true, decide_eq_true_eq] at hblank
    rcases hblank with (rfl | rfl) | rfl <;> revert hplain <;> decide
  · rintro rfl
    revert hplain
    decide
  · rintro rfl
    revert hplain
    decide

theorem Clean.noNul {v : Bytes} (h : Clean v) : (0 : UInt8) ∉ v := fun hmem => (h 0 hmem).2.2 rfl

section Load

variable {S : Set Bytes} {m : Files} {cfgFile : Bytes}

/-- Every key has a colon. -/
def Colons (T : Table) : Prop := ∀ k ∈ T, (58 : UInt8) ∈ k.1

theorem Colons.safe {T : Table} (hT : Colons T) {e : Bytes × Bytes} (h : Clean e.2) : Safe T e := by
  refine ⟨fun c hc => (h c hc).1, fun j hj hin => ?_⟩
  obtain ⟨k, hk, rfl⟩ := List.mem_map.mp ((List.takeWhile_sublist _).subset hj)
  exact (h 58 (hin.subset (hT k hk))).2.1 rfl

theorem fits_of_mem {T : Table} (hT : T.WellFormed) {key v : Bytes} {n : ℕ}
    (hkey : (key, Dest.array n) ∈ T) (hv : v.length < n) : Fits T (key, v) := by
  intro size hsize
  have heq := hT.eq_of_fst hsize hkey rfl
  rw [Prod.mk.injEq, Dest.array.injEq] at heq
  rw [heq.2]
  exact hv

theorem holds_iff_noNul {memory v : Bytes} (h : Holds memory v) :
    (0 : UInt8) ∈ memory ∧ text memory = v := by
  refine ⟨?_, h.1⟩
  by_contra hnul
  have hlen := h.2
  rw [← h.1, text_of_noNul hnul] at hlen
  exact lt_irrefl _ hlen

theorem wp_field {info : Info} {key : String} {v : Bytes} (h : Holds (info (ascii key)) v)
    {Q : Files → Bytes → Prop} : (field info key).wp S m Q ↔ Q m v := by
  obtain ⟨hnul, htext⟩ := holds_iff_noNul h
  rw [field, if_pos hnul, htext]
  rfl

/-- A configuration of clean values that fit is read. -/
theorem wp_lcsCfgLoad {h : Handoff} {file : Bytes} (hq : h.Quiet) (hwritten : h.file = some file)
    (hfile : m cfgFile = some file) (hsmall : file.length + 1 < 2 ^ 32) (hcolons : Colons h.table)
    (hvalues : ∀ e ∈ h.lines, Fits h.table e ∧ Clean e.2) (hcfg : cfgFile ∈ S)
    {Q : Files → Info → Prop}
    (hQ : ∀ info, (∀ e ∈ h.lines, Takes h.table e.1 → Holds (info e.1) e.2) → Q m info) :
    (lcsCfgLoad h.table cfgFile).wp S m Q := by
  obtain ⟨-, rfl⟩ := Handoff.file_eq_some.mp hwritten
  obtain ⟨info, hload, hread⟩ := (load_joined_iff h.table_wellFormed h.lines_noNul h.lines_nodup
    (h.lines_known hq)).mpr fun e he _ => ⟨(hvalues e he).1, hcolons.safe (hvalues e he).2⟩
  rw [lcsCfgLoad, Proc.wp_bind, wp_lcsFileText hfile hsmall]
  refine ⟨hcfg, ?_⟩
  simp only [h.load_newline, hload, Proc.wp_pure]
  exact hQ info hread

theorem joined_length (es : List (Bytes × Bytes)) :
    (joined es).length ≤ (es.map fun e => e.1.length + e.2.length + 1).sum := by
  induction es with
  | nil => exact Nat.zero_le _
  | cons e es ih =>
    cases es with
    | nil => simp [joined]
    | cons e' es =>
      have hjoined : joined (e :: e' :: es) = e.1 ++ e.2 ++ [10] ++ joined (e' :: es) := by
        simp [joined, List.intercalate_cons_cons]
      rw [hjoined, List.map_cons, List.sum_cons, List.length_append, List.length_append,
        List.length_append, List.length_singleton]
      omega

theorem handoff_file_length {h : Handoff} {file : Bytes} (hwritten : h.file = some file) :
    file.length ≤ (h.lines.map fun e => e.1.length + e.2.length + 1).sum + 1 := by
  obtain ⟨-, rfl⟩ := Handoff.file_eq_some.mp hwritten
  have hjoined := joined_length h.lines
  have hnewline : h.newline.length ≤ 1 := by
    cases h <;> simp [Handoff.newline]
  rw [List.length_append]
  omega

/-- What the programs of an hour and of a day are given. -/
def templateLines (info : LcsTemplateInfo) : List (Bytes × Bytes) :=
  [(ascii "targetpath_0001:", info.targetpath), (ascii "name_ana_0002:", info.nameAna),
    (ascii "subprocess_0003:", info.subprocess), (ascii "prefixshmkey_0004:", info.prefixshmkey)]

theorem wp_lcsInitApp {h : Handoff} {file : Bytes} {info : LcsTemplateInfo} {n : ℕ}
    (hq : h.Quiet) (hwritten : h.file = some file) (hfile : m cfgFile = some file)
    (hcfg : cfgFile ∈ S) (hlines : h.lines = templateLines info)
    (htable : h.table = reportKeys ++ [(ascii "prefixshmkey_0004:", .array n)])
    (hpath : info.targetpath.length < 1024) (hname : info.nameAna.length < 64)
    (hprocess : info.subprocess.length < 1024) (hkey : info.prefixshmkey.length < n) (hn : n ≤ 1024)
    (hclean : ∀ e ∈ templateLines info, Clean e.2) {Q : Files → LcsTemplateInfo → Prop}
    (hQ : Q m info) : (lcsInitApp h.table cfgFile).wp S m Q := by
  have hT := h.table_wellFormed
  have hsizes : ∀ e ∈ templateLines info, ∃ size, (e.1, Dest.array size) ∈ h.table ∧
      e.2.length < size := by
    rw [htable]
    simp only [templateLines, List.forall_mem_cons, List.not_mem_nil, false_imp_iff, implies_true,
      and_true]
    exact ⟨⟨1024, by simp [reportKeys], hpath⟩, ⟨64, by simp [reportKeys], hname⟩,
      ⟨1024, by simp [reportKeys], hprocess⟩, ⟨n, by simp, hkey⟩⟩
  have hsmall : file.length + 1 < 2 ^ 32 := by
    have hlen := handoff_file_length hwritten
    have hkeys : (ascii "targetpath_0001:").length = 16 ∧ (ascii "name_ana_0002:").length = 14 ∧
        (ascii "subprocess_0003:").length = 16 ∧ (ascii "prefixshmkey_0004:").length = 18 := by
      decide
    simp only [hlines, templateLines, List.map_cons, List.map_nil, List.sum_cons, List.sum_nil]
      at hlen
    omega
  have hcolons : Colons h.table := by
    rw [htable]
    intro k hk
    simp only [reportKeys, List.cons_append, List.nil_append, List.mem_cons, List.not_mem_nil,
      or_false] at hk
    rcases hk with rfl | rfl | rfl | rfl <;> dsimp only <;> decide
  rw [lcsInitApp, Proc.wp_bind]
  refine wp_lcsCfgLoad hq hwritten hfile hsmall hcolons (fun e he => ?_) hcfg fun loaded hread => ?_
  · rw [hlines] at he
    obtain ⟨size, hmem, hlt⟩ := hsizes e he
    exact ⟨fits_of_mem hT hmem hlt, hclean e he⟩
  · have hholds : ∀ e ∈ templateLines info, Holds (loaded e.1) e.2 := by
      intro e he
      obtain ⟨size, hmem, -⟩ := hsizes e he
      exact hread e (hlines ▸ he) ⟨.array size, hmem, by simp⟩
    simp only [templateLines, List.forall_mem_cons] at hholds
    obtain ⟨htarget, hana, hsub, hprefix, -⟩ := hholds
    rw [Proc.wp_bind, wp_field htarget, Proc.wp_bind, wp_field hana, Proc.wp_bind, wp_field hsub,
      Proc.wp_bind, wp_field hprefix]
    exact hQ

/-- The program of five minutes reads its configuration too. -/
theorem wp_unitLoad {r : Report} (hr : r.shared = true) (prefixshmkey dir : CStr 1024)
    (sub : CStr 256) (ana : CStr 64) {file : Bytes}
    (hwritten : lcsUnitConfig r prefixshmkey.bytes dir.bytes sub.bytes ana.bytes = some file)
    (hfile : m cfgFile = some file) (hcfg : cfgFile ∈ S)
    (hpath : (joinPath [dir.bytes, sub.bytes]).length < 1024)
    (hkey : prefixshmkey.bytes.length < 512) (hcleanPath : Clean (joinPath [dir.bytes, sub.bytes]))
    (hcleanAna : Clean ana.bytes) (hcleanKey : Clean prefixshmkey.bytes) {Q : Files → Info → Prop}
    (hQ : ∀ info, Holds (info (ascii "targetpath_0001:")) (joinPath [dir.bytes, sub.bytes]) →
      Holds (info (ascii "name_ana_0002:")) ana.bytes →
      Holds (info (ascii "prefixshmkey_0003:")) prefixshmkey.bytes → Q m info) :
    (lcsCfgLoad (unitKeys r) cfgFile).wp S m Q := by
  let h : Handoff := .fiveMinutes r prefixshmkey dir sub ana
  have hlines : h.lines = [(ascii "targetpath_0001:", joinPath [dir.bytes, sub.bytes]),
      (ascii "name_ana_0002:", ana.bytes), (ascii "prefixshmkey_0003:", prefixshmkey.bytes)] := by
    simp [h, Handoff.lines, hr]
  have htable : h.table = [(ascii "targetpath_0001:", .array 1024),
      (ascii "name_ana_0002:", .array 64), (ascii "prefixshmkey_0003:", .array 512)] := by
    simp [h, Handoff.table, unitKeys, hr]
  have hsizes : ∀ e ∈ h.lines, ∃ size, (e.1, Dest.array size) ∈ h.table ∧ e.2.length < size ∧
      Clean e.2 := by
    rw [htable, hlines]
    simp only [List.forall_mem_cons, List.not_mem_nil, false_imp_iff, implies_true, and_true]
    exact ⟨⟨1024, by simp, hpath, hcleanPath⟩, ⟨64, by simp, ana.lt, hcleanAna⟩,
      ⟨512, by simp, hkey, hcleanKey⟩⟩
  have hsmall : file.length + 1 < 2 ^ 32 := by
    have hlen := handoff_file_length (h := h) hwritten
    have hkeys : (ascii "targetpath_0001:").length = 16 ∧ (ascii "name_ana_0002:").length = 14 ∧
        (ascii "prefixshmkey_0003:").length = 18 := by decide
    have hana := ana.lt
    simp only [hlines, List.map_cons, List.map_nil, List.sum_cons, List.sum_nil] at hlen
    omega
  have hcolons : Colons h.table := by
    rw [htable]
    intro k hk
    simp only [List.mem_cons, List.not_mem_nil, or_false] at hk
    rcases hk with rfl | rfl | rfl <;> decide
  refine wp_lcsCfgLoad (h := h) trivial hwritten hfile hsmall hcolons (fun e he => ?_) hcfg
    fun info hread => ?_
  · obtain ⟨size, hmem, hlt, hclean⟩ := hsizes e he
    exact ⟨fits_of_mem h.table_wellFormed hmem hlt, hclean⟩
  · have hholds : ∀ e ∈ h.lines, Holds (info e.1) e.2 := by
      intro e he
      obtain ⟨size, hmem, -⟩ := hsizes e he
      exact hread e he ⟨.array size, hmem, by simp⟩
    rw [hlines] at hholds
    simp only [List.forall_mem_cons] at hholds
    obtain ⟨htarget, hana, hprefix, -⟩ := hholds
    exact hQ info htarget hana hprefix

end Load

/-! ### Five minutes -/

/-- A day of a report. -/
structure Day where
  r : Report
  user : Bytes
  rootPath : Bytes
  server : Bytes
  dbname : Bytes
  date : Bytes
  ana : Bytes

namespace Day

def path (d : Day) : Bytes := joinPath [d.rootPath, d.server, d.dbname, replaceDash 47 d.date]

def prefixshmkey (d : Day) : Bytes := shmPrefix d.user d.server d.dbname d.date

/-- What the analysis writes for the program of the day. -/
def config (d : Day) (site : Site) : Option Bytes :=
  lcsAnalysisDateConfig d.user d.rootPath d.server d.dbname d.date d.ana site.hourProcess

/-- The file of a directory. -/
def analysis (d : Day) (dirs : List Bytes) : Bytes := inDir dirs d.ana ".analysis"

/-- The database of a directory. -/
def database (path : Bytes) : Bytes := joinPath [path, ascii "lcs.db"]

/-- The rows of the report on a database, where that and the query are there. -/
def rows (d : Day) (site : Site) (m : Files) (path : Bytes) : Option (List ResultRow) := do
  let sql ← site.query (ascii "../sql/" ++ d.ana ++ ascii ".sql")
  let base ← m (database path)
  some (site.select sql base)

/-- The report on the database of a directory. -/
def report (d : Day) (site : Site) (m : Files) (path : Bytes) (mapped : Mapped) : Option Bytes := do
  let rows ← d.rows site m path
  linesOf d.r mapped rows

/-- The file that a directory of five minutes has in the end: its own, or the report, where the
segments of the day are there. -/
def minuteFile (d : Day) (site : Site) (m : Files) (path : Bytes) : Option Bytes :=
  match m (d.analysis [path]) with
  | some file => some file
  | none => do
    let mapped ← (lcsLoadshm site.shm d.r d.prefixshmkey).join
    d.report site m path mapped

/-- The callback can write each row for a directory without a file. -/
def Writable (d : Day) (site : Site) (m : Files) (path : Bytes) : Prop :=
  m (d.analysis [path]) = none →
    ∀ mapped, lcsLoadshm site.shm d.r d.prefixshmkey = some (some mapped) →
    ∀ rows, d.rows site m path = some rows →
    ∀ row ∈ rows, (lcsExecCbtrue d.r mapped row).isSome = true

/-- The texts of the directories of an hour. -/
def hourFile (d : Day) (site : Site) (m : Files) (dir : Bytes) (subs : List Bytes) : Bytes :=
  subs.flatMap fun sub => text ((d.minuteFile site m (joinPath [dir, sub])).getD [])

/-- The file that the program of an hour leaves. -/
def gen (d : Day) (site : Site) (m : Files) (hour : Bytes) : Option Bytes :=
  match lcsSubdirs site (joinPath [d.path, hour]) with
  | some (some subs) => some (d.hourFile site m (joinPath [d.path, hour]) subs)
  | _ => none

/-- The words of a day are plain and fit where they are copied. -/
structure Lawful (d : Day) (site : Site) : Prop where
  shared : d.r.shared = true
  user : Plain d.user
  rootPath : Plain d.rootPath ∧ d.rootPath.length < 1024
  server : Plain d.server ∧ d.server.length < 1024
  dbname : Plain d.dbname ∧ d.dbname.length < 1024
  date : Plain d.date ∧ d.date.length < 12
  ana : Name d.ana ∧ d.ana.length < 9
  hourProcess : Plain site.hourProcess ∧ site.hourProcess.length < 128
  dest : (d.analysis [d.path]).length < 1024
  segments : (lcsLoadshm site.shm d.r d.prefixshmkey).isSome = true

/-- The buffers of the program of an hour have room for the paths of a directory. -/
structure UnitFits (d : Day) (dir sub : Bytes) : Prop where
  plain : Plain dir
  dirLength : dir.length < 1024
  name : Name sub
  subLength : sub.length < 256
  config : (inDir [dir, sub] d.ana ".config.cfg").length < 1024

section Units

variable {d : Day} {site : Site} {m : Files} {S : Set Bytes} {dir sub : Bytes}

theorem database_mem_below (path : Bytes) : database path ∈ below path := by
  rw [database, joinPath_cons_cons]
  exact mem_below path _

/-- A report needs two files of its directory. -/
theorem minuteFile_eq {m' : Files} {path : Bytes} (hfile : m (d.analysis [path]) =
    m' (d.analysis [path])) (hbase : m (database path) = m' (database path)) :
    d.minuteFile site m path = d.minuteFile site m' path := by
  simp only [minuteFile, report, rows, hfile, hbase]

theorem Writable.eq {m' : Files} {path : Bytes} (h : d.Writable site m path)
    (hfile : m (d.analysis [path]) = m' (d.analysis [path]))
    (hbase : m (database path) = m' (database path)) : d.Writable site m' path := by
  simpa only [Writable, rows, hfile, hbase] using h

theorem minuteFile_congr {m' : Files} {path : Bytes} (h : Set.EqOn m m' (below path)) :
    d.minuteFile site m path = d.minuteFile site m' path :=
  minuteFile_eq (h (inDir_mem_below path d.ana _)) (h (database_mem_below path))

theorem Writable.congr {m' : Files} {path : Bytes} (hw : d.Writable site m path)
    (h : Set.EqOn m m' (below path)) : d.Writable site m' path :=
  hw.eq (h (inDir_mem_below path d.ana _)) (h (database_mem_below path))

theorem plain_append {s t : Bytes} (hs : Plain s) (ht : ∀ c ∈ t, plainByte c = true) :
    Plain (s ++ t) := by
  refine ⟨fun h => hs.1 (List.append_eq_nil_iff.mp h).1, fun c hc => ?_⟩
  rcases List.mem_append.mp hc with hc | hc
  · exact hs.2 c hc
  · exact ht c hc

theorem plain_joinPath {s : Bytes} {l : List Bytes} (hs : Plain s) (hl : ∀ t ∈ l, Plain t) :
    Plain (joinPath (s :: l)) := by
  induction l generalizing s with
  | nil => rwa [joinPath_singleton]
  | cons t l ih =>
    rw [joinPath_cons_cons]
    refine plain_append hs fun c hc => ?_
    rcases List.mem_cons.mp hc with rfl | hc
    · decide
    · exact (ih (hl t List.mem_cons_self) fun u hu => hl u (List.mem_cons_of_mem t hu)).2 c hc

theorem plain_inDir {s : Bytes} {l : List Bytes} (hs : Plain s) (hl : ∀ t ∈ l, Plain t)
    {ana : Bytes} (hana : Plain ana) {extension : String}
    (hext : ∀ c ∈ ascii extension, plainByte c = true) : Plain (inDir (s :: l) ana extension) := by
  rw [inDir, List.cons_append]
  refine plain_joinPath hs fun t ht => ?_
  rcases List.mem_append.mp ht with ht | ht
  · exact hl t ht
  · rw [List.mem_singleton.mp ht]
    exact plain_append hana hext

theorem plain_analysis : ∀ c ∈ ascii ".analysis", plainByte c = true :=
  List.all_eq_true.mp (by decide)

theorem plain_config : ∀ c ∈ ascii ".config.cfg", plainByte c = true :=
  List.all_eq_true.mp (by decide)

theorem plain_replaceDash {c : UInt8} (hc : plainByte c = true) {s : Bytes} (h : Plain s) :
    Plain (replaceDash c s) := by
  refine ⟨fun hnil => h.1 (List.map_eq_nil_iff.mp hnil), fun b hb => ?_⟩
  obtain ⟨a, ha, rfl⟩ := List.mem_map.mp hb
  split_ifs
  · exact hc
  · exact h.2 a ha

theorem Lawful.path_plain (L : d.Lawful site) : Plain d.path := by
  refine plain_joinPath L.rootPath.1 ?_
  simp only [List.forall_mem_cons, List.not_mem_nil, false_imp_iff, implies_true, and_true]
  exact ⟨L.server.1, L.dbname.1, plain_replaceDash (by decide) L.date.1⟩

theorem Lawful.path (L : d.Lawful site) : d.path.length < 1024 := by
  have hdest := L.dest
  rw [analysis, inDir_one, List.length_append] at hdest
  omega

theorem Lawful.keyLength (L : d.Lawful site) : d.prefixshmkey.length < 256 := key_length L.segments

theorem Lawful.prefixshmkey_plain (L : d.Lawful site) : Plain d.prefixshmkey := by
  refine plain_append L.user fun c hc => ?_
  have hdate : Plain (replaceDash 95 d.date) := plain_replaceDash (by decide) L.date.1
  simp only [List.mem_cons, List.mem_append] at hc
  rcases hc with rfl | hc | rfl | hc | rfl | hc
  · decide
  · exact L.server.1.2 c hc
  · decide
  · exact L.dbname.1.2 c hc
  · decide
  · exact hdate.2 c hc

theorem UnitFits.lengths (F : d.UnitFits dir sub) :
    (joinPath [dir, sub]).length + d.ana.length + 12 < 1024 := by
  have hconfig := F.config
  have hext : (ascii ".config.cfg").length = 11 := by decide
  rw [inDir_two, List.length_append, List.length_cons, List.length_append, hext] at hconfig
  omega

theorem analysis_ne_database (d : Day) (path : Bytes) : d.analysis [path] ≠ database path := by
  intro h
  rw [analysis, database, inDir_one, joinPath_cons_cons, joinPath_singleton,
    List.append_cancel_left_eq, List.cons.injEq] at h
  have hlen := congrArg List.length h.2
  have hascii : (ascii ".analysis").length = 9 ∧ (ascii "lcs.db").length = 6 := by decide
  rw [List.length_append] at hlen
  omega

/-- The rows of a query are written where each of them can be. -/
theorem wp_lcsExecSql {mapped : Mapped} {sql base db writepath : Bytes} (hne : db ≠ writepath)
    (hbase : m db = some base) (hdb : db ∈ S) (hfile : writepath ∈ S)
    (hrows : ∀ row ∈ site.select sql base, (lcsExecCbtrue d.r mapped row).isSome = true) :
    (lcsExecSql site d.r mapped sql db writepath).wp S m fun m' _ =>
      m' writepath = linesOf d.r mapped (site.select sql base) := by
  obtain ⟨lines, hlines⟩ := linesOf_isSome hrows
  rw [lcsExecSql, Proc.wp_bind, wp_writeFile, Proc.wp_bind, wp_readFile,
    Function.update_of_ne hne, hbase, Option.getD_some, hlines, wp_writeFile]
  exact ⟨hfile, hdb, hfile, Function.update_self _ _ _⟩

theorem wp_lcsUnitAnalysis (F : d.UnitFits dir sub) {mapped : Mapped} (hana : d.ana.length < 9)
    (hrows : ∀ rows, d.rows site m (joinPath [dir, sub]) = some rows →
      ∀ row ∈ rows, (lcsExecCbtrue d.r mapped row).isSome = true)
    (hnone : m (d.analysis [joinPath [dir, sub]]) = none) :
    (lcsUnitAnalysis site d.r (joinPath [dir, sub]) d.ana mapped).wp (below (joinPath [dir, sub])) m
      fun m' _ => m' (d.analysis [joinPath [dir, sub]]) =
        d.report site m (joinPath [dir, sub]) mapped := by
  have hlen := F.lengths
  have hquery : (ascii "../sql/" ++ d.ana ++ ascii ".sql").length < 1024 := by
    have hascii : (ascii "../sql/").length = 7 ∧ (ascii ".sql").length = 4 := by decide
    rw [List.length_append, List.length_append]
    omega
  have hdb : (database (joinPath [dir, sub])).length < 1024 := by
    have hascii : (ascii "lcs.db").length = 6 := by decide
    rw [database, joinPath_cons_cons, joinPath_singleton, List.length_append, List.length_cons]
    omega
  have hwrite : (inDir [joinPath [dir, sub]] d.ana ".analysis").length < 1024 := by
    have hascii : (ascii ".analysis").length = 9 := by decide
    rw [inDir_one, List.length_append, List.length_cons, List.length_append]
    omega
  have hbase := database_mem_below (joinPath [dir, sub])
  rw [lcsUnitAnalysis, Proc.wp_bind, wp_sprintf hquery]
  unfold report
  unfold rows at hrows ⊢
  cases hsql : site.query (ascii "../sql/" ++ d.ana ++ ascii ".sql") with
  | none => exact hnone
  | some sql =>
    dsimp only
    rw [Proc.wp_bind, ← database, wp_sprintf hdb, Proc.wp_bind, wp_readFile]
    refine ⟨hbase, ?_⟩
    cases hm : m (database (joinPath [dir, sub])) with
    | none => exact hnone
    | some base =>
      dsimp only
      rw [Proc.wp_bind, wp_sprintf hwrite]
      exact wp_lcsExecSql (analysis_ne_database d _).symm hm hbase (inDir_mem_below _ _ _)
        (hrows _ (by rw [hsql, hm]; rfl))

/-- The program of five minutes, in a directory without a file. -/
theorem wp_unitMain (L : d.Lawful site) (F : d.UnitFits dir sub)
    (hw : d.Writable site m (joinPath [dir, sub])) {cfgFile file : Bytes}
    (hwritten : lcsUnitConfig d.r d.prefixshmkey dir sub d.ana = some file)
    (hfile : m cfgFile = some file) (hcfg : cfgFile ∈ below (joinPath [dir, sub]))
    (hnone : m (d.analysis [joinPath [dir, sub]]) = none) :
    (unitMain site d.r cfgFile).wp (below (joinPath [dir, sub])) m fun m' _ =>
      m' (d.analysis [joinPath [dir, sub]]) = d.minuteFile site m (joinPath [dir, sub]) := by
  have hkey := L.prefixshmkey_plain.clean
  have hkeyLength := L.keyLength
  have hana := L.ana.1.1.clean
  have hanaLength := L.ana.2
  have hlengths := F.lengths
  have hpath : Plain (joinPath [dir, sub]) := plain_joinPath F.plain (by simp [F.name.1])
  obtain ⟨loaded, hloaded⟩ := Option.isSome_iff_exists.mp L.segments
  rw [unitMain, Proc.wp_bind]
  refine wp_unitLoad L.shared ⟨d.prefixshmkey, by omega, hkey.noNul⟩
    ⟨dir, F.dirLength, F.plain.clean.noNul⟩ ⟨sub, F.subLength, F.name.1.clean.noNul⟩
    ⟨d.ana, by omega, hana.noNul⟩ hwritten hfile hcfg
    (show (joinPath [dir, sub]).length < 1024 by omega)
    (show d.prefixshmkey.length < 512 by omega) hpath.clean hana hkey
    fun info htarget hname hprefix => ?_
  rw [Proc.wp_bind, wp_field hprefix, hloaded, minuteFile, hnone, hloaded]
  cases loaded with
  | none => exact hnone
  | some mapped =>
    dsimp only
    rw [Proc.wp_bind, wp_field htarget, Proc.wp_bind, wp_field hname]
    exact wp_lcsUnitAnalysis F hanaLength (hw hnone mapped hloaded) hnone

theorem inDir_nest (dir sub ana : Bytes) (extension : String) :
    inDir [dir, sub] ana extension = inDir [joinPath [dir, sub]] ana extension := by
  rw [inDir_two, inDir_one]

theorem analysis_ne_config (d : Day) (path : Bytes) :
    inDir [path] d.ana ".config.cfg" ≠ d.analysis [path] := by
  intro h
  rw [analysis, inDir_one, inDir_one, List.append_cancel_left_eq, List.cons.injEq,
    List.append_cancel_left_eq] at h
  exact absurd h.2 (by decide)

theorem config_ne_database (d : Day) (path : Bytes) :
    inDir [path] d.ana ".config.cfg" ≠ database path := by
  intro h
  rw [database, inDir_one, joinPath_cons_cons, joinPath_singleton, List.append_cancel_left_eq,
    List.cons.injEq] at h
  have hlen := congrArg List.length h.2
  have hascii : (ascii ".config.cfg").length = 11 ∧ (ascii "lcs.db").length = 6 := by decide
  rw [List.length_append] at hlen
  omega

/-- The configuration of a directory has no part in what is left there. -/
theorem minuteFile_config (path : Bytes) (file : Option Bytes) :
    d.minuteFile site (Function.update m (inDir [path] d.ana ".config.cfg") file) path =
      d.minuteFile site m path :=
  minuteFile_eq (Function.update_of_ne (analysis_ne_config d path).symm _ _)
    (Function.update_of_ne (config_ne_database d path).symm _ _)

theorem unitProcess_plain (r : Report) : Plain r.unitProcess ∧ r.unitProcess.length < 64 := by
  cases r <;> decide +kernel

/-- A configuration of five minutes is written where its path has room. -/
theorem lcsUnitConfig_isSome (F : d.UnitFits dir sub) (r : Report) (prefixshmkey : Bytes) :
    ∃ file, lcsUnitConfig r prefixshmkey dir sub d.ana = some file :=
  ⟨_, Option.bind_eq_some_iff.mpr ⟨_, intoArray_eq_some.mpr ⟨F.config, rfl⟩, rfl⟩⟩

/-- A turn of the first loop of an hour. -/
theorem wp_unitTurn (L : d.Lawful site) (F : d.UnitFits dir sub)
    (hw : d.Writable site m (joinPath [dir, sub])) {info : LcsTemplateInfo}
    (hana : info.nameAna = d.ana) (hprocess : info.subprocess = d.r.unitProcess)
    (hkey : info.prefixshmkey = d.prefixshmkey) :
    (unitTurn site d.r info dir sub).wp (below (joinPath [dir, sub])) m fun m' _ =>
      m' (d.analysis [joinPath [dir, sub]]) = d.minuteFile site m (joinPath [dir, sub]) := by
  have hlengths := F.lengths
  have htmp : (inDir [dir, sub] d.ana ".analysis").length < 1024 := by
    have hascii : (ascii ".analysis").length = 9 := by decide
    rw [inDir_two, List.length_append, List.length_cons, List.length_append]
    omega
  have harg : Plain (configPath dir sub d.ana) :=
    plain_inDir (l := [sub]) F.plain (by simp [F.name.1]) L.ana.1.1 plain_config
  obtain ⟨hunit, hunitLength⟩ := unitProcess_plain d.r
  have houtput : (unitOutput d.r).length ≤ 12 := by
    have hall : ∀ r, (unitOutput r).length ≤ 12 := by
      intro r
      cases r <;> decide
    exact hall d.r
  rw [unitTurn, hana, Proc.wp_bind, wp_sprintf htmp, Proc.wp_bind, wp_readFile, inDir_nest]
  refine ⟨inDir_mem_below _ _ _, ?_⟩
  cases hm : m (inDir [joinPath [dir, sub]] d.ana ".analysis") with
  | some file =>
    rw [Proc.wp_pure, minuteFile, analysis, hm]
  | none =>
    obtain ⟨file, hwritten⟩ := lcsUnitConfig_isSome F d.r d.prefixshmkey
    have hpath : configPath dir sub d.ana = inDir [joinPath [dir, sub]] d.ana ".config.cfg" :=
      inDir_nest dir sub d.ana ".config.cfg"
    have hlength : (configPath dir sub d.ana).length < 1024 := F.config
    have hfile := analysis_ne_config d (joinPath [dir, sub])
    have hbase := config_ne_database d (joinPath [dir, sub])
    dsimp only
    rw [lcsUnitGen, hana, hprocess, hkey, hwritten]
    dsimp only
    rw [Proc.wp_bind, wp_writeFile, wp_lcsBashCmd (by omega) hunit harg, hpath]
    refine ⟨inDir_mem_below _ _ _, ?_⟩
    rw [← minuteFile_config (m := m) (joinPath [dir, sub]) (some file)]
    refine wp_unitMain L F (hw.eq (Function.update_of_ne hfile.symm _ _).symm
      (Function.update_of_ne hbase.symm _ _).symm) hwritten (Function.update_self _ _ _)
      (inDir_mem_below _ _ _) ?_
    rw [Function.update_of_ne hfile.symm]
    exact hm

end Units

/-! ### An hour -/

/-- The directories of an hour can be worked on. -/
structure HourFits (d : Day) (site : Site) (m : Files) (dir : Bytes) (subs : List Bytes) :
    Prop where
  nodup : subs.Nodup
  units : ∀ sub ∈ subs, d.UnitFits dir sub
  writable : ∀ sub ∈ subs, d.Writable site m (joinPath [dir, sub])
  small : ∀ sub ∈ subs, ∀ file ∈ d.minuteFile site m (joinPath [dir, sub]), file.length + 1 < 2 ^ 32
  file : (d.analysis [dir]).length < 1024

section Hours

variable {d : Day} {site : Site} {m : Files} {dir : Bytes} {subs : List Bytes}
  {info : LcsTemplateInfo}

theorem HourFits.disjoint (H : d.HourFits site m dir subs) {s t : Bytes} (hs : s ∈ subs)
    (ht : t ∈ subs) (hne : s ≠ t) :
    Disjoint (below (joinPath [dir, s])) (below (joinPath [dir, t])) :=
  below_disjoint (H.units s hs).name.2 (H.units t ht).name.2 hne dir

theorem analysis_mem_below (path : Bytes) : d.analysis [path] ∈ below path :=
  inDir_mem_below path d.ana ".analysis"

theorem inDir_analysis (dir sub : Bytes) :
    inDir [dir, sub] d.ana ".analysis" = d.analysis [joinPath [dir, sub]] :=
  inDir_nest dir sub d.ana ".analysis"

/-- The first loop: every directory has its file, and nothing else is touched. -/
theorem wp_unitTurns (L : d.Lawful site) (H : d.HourFits site m dir subs)
    (hana : info.nameAna = d.ana) (hprocess : info.subprocess = d.r.unitProcess)
    (hkey : info.prefixshmkey = d.prefixshmkey) :
    (forM subs (unitTurn site d.r info dir)).wp (below dir) m fun m' _ =>
      (∀ s ∈ subs, m' (d.analysis [joinPath [dir, s]]) = d.minuteFile site m (joinPath [dir, s])) ∧
      ∀ p, (∀ s ∈ subs, p ∉ below (joinPath [dir, s])) → m' p = m p := by
  refine Proc.wp_forM (fun as m' =>
    (∀ s ∈ as, m' (d.analysis [joinPath [dir, s]]) = d.minuteFile site m (joinPath [dir, s])) ∧
      ∀ p, (∀ s ∈ as, p ∉ below (joinPath [dir, s])) → m' p = m p) ?_
    ⟨by simp, fun _ _ => rfl⟩
  rintro as t bs m₁ rfl ⟨hdone, hrest⟩
  have ht : t ∈ as ++ t :: bs := by simp
  have hother : ∀ s ∈ as, Disjoint (below (joinPath [dir, s])) (below (joinPath [dir, t])) := by
    intro s hs
    refine H.disjoint (List.mem_append_left _ hs) ht ?_
    rintro rfl
    exact (List.nodup_append.mp H.nodup).2.2 s hs s List.mem_cons_self rfl
  have hsame : Set.EqOn m₁ m (below (joinPath [dir, t])) := fun p hp =>
    hrest p fun s hs hps => Set.disjoint_left.mp (hother s hs) hps hp
  refine Proc.wp_mono (fun m' _ hm' => ?_) (Proc.wp_subset (below_subset dir t)
    (Proc.wp_frame (wp_unitTurn L (H.units t ht) ((H.writable t ht).congr hsame.symm) hana hprocess
      hkey)))
  obtain ⟨hfile, hframe⟩ := hm'
  constructor
  · intro s hs
    rcases List.mem_append.mp hs with hs | hs
    · rw [hframe _ fun hmem => Set.disjoint_left.mp (hother s hs) (analysis_mem_below _) hmem]
      exact hdone s hs
    · rw [List.mem_singleton.mp hs, hfile]
      exact minuteFile_congr hsame
  · intro p hp
    rw [hframe p (hp t (by simp))]
    exact hrest p fun s hs => hp s (List.mem_append_left _ hs)

theorem analysis_notMem_below (hana : (47 : UInt8) ∉ d.ana) (dir sub : Bytes) :
    d.analysis [dir] ∉ below (joinPath [dir, sub]) := by
  have hext : (47 : UInt8) ∉ ascii ".analysis" := by decide
  exact inDir_notMem_below (by simp [hana, hext]) dir sub

/-- The second loop puts the texts of the directories together. -/
theorem wp_catTurns (L : d.Lawful site) {m₁ : Files} (H : d.HourFits site m dir subs)
    (hana : info.nameAna = d.ana) (hempty : m₁ (d.analysis [dir]) = some [])
    (hunits : ∀ s ∈ subs,
      m₁ (d.analysis [joinPath [dir, s]]) = d.minuteFile site m (joinPath [dir, s])) :
    (forM subs (catTurn info dir (d.analysis [dir]))).wp (below dir) m₁ fun m' _ =>
      m' (d.analysis [dir]) = some (d.hourFile site m dir subs) ∧
      ∀ p ≠ d.analysis [dir], m' p = m₁ p := by
  refine Proc.wp_forM (fun as m' => m' (d.analysis [dir]) = some (d.hourFile site m dir as) ∧
    ∀ p ≠ d.analysis [dir], m' p = m₁ p) ?_ ⟨hempty, fun _ _ => rfl⟩
  rintro as t bs m₂ rfl ⟨hfile, hrest⟩
  have ht : t ∈ as ++ t :: bs := by simp
  have hlengths := (H.units t ht).lengths
  have htmp : (inDir [dir, t] d.ana ".analysis").length < 1024 := by
    have hascii : (ascii ".analysis").length = 9 := by decide
    rw [inDir_two, List.length_append, List.length_cons, List.length_append]
    omega
  have hne : d.analysis [joinPath [dir, t]] ≠ d.analysis [dir] := by
    intro h
    exact analysis_notMem_below L.ana.1.2 dir t (h ▸ analysis_mem_below _)
  have hunit := (hrest _ hne).trans (hunits t ht)
  have htext : d.hourFile site m dir (as ++ [t]) = d.hourFile site m dir as ++
      text ((d.minuteFile site m (joinPath [dir, t])).getD []) := by
    simp [hourFile]
  have hmem : d.analysis [joinPath [dir, t]] ∈ below dir :=
    below_subset dir t (inDir_mem_below _ _ _)
  rw [catTurn, hana, Proc.wp_bind, wp_sprintf htmp, Proc.wp_bind, inDir_analysis]
  cases hm : d.minuteFile site m (joinPath [dir, t]) with
  | none =>
    rw [hm] at hunit
    rw [wp_lcsFileText_none hunit, Proc.wp_pure, htext, hm]
    refine ⟨hmem, ?_, hrest⟩
    rw [hfile, Option.getD_none]
    exact congrArg some (List.append_nil _).symm
  | some file =>
    rw [hm] at hunit
    rw [wp_lcsFileText hunit (H.small t ht file hm)]
    dsimp only
    rw [Proc.wp_bind, wp_readFile, wp_writeFile]
    refine ⟨hmem, inDir_mem_below _ _ _, inDir_mem_below _ _ _, ?_, fun p hp => ?_⟩
    · rw [Function.update_self, hfile, htext, hm]
      rfl
    · rw [Function.update_of_ne hp]
      exact hrest p hp

/-- What the program of an hour does. -/
theorem wp_lcsHcollectAnaHour (L : d.Lawful site) (H : d.HourFits site m dir subs)
    (hana : info.nameAna = d.ana) (hprocess : info.subprocess = d.r.unitProcess)
    (hkey : info.prefixshmkey = d.prefixshmkey) :
    (lcsHcollectAnaHour site d.r info dir subs).wp (below dir) m fun m' _ =>
      m' (d.analysis [dir]) = some (d.hourFile site m dir subs) ∧
      ∀ s ∈ subs,
        m' (d.analysis [joinPath [dir, s]]) = d.minuteFile site m (joinPath [dir, s]) := by
  have hmem : d.analysis [dir] ∈ below dir := analysis_mem_below dir
  have htmpA : inDir [dir] d.ana ".analysis" = d.analysis [dir] := rfl
  rw [lcsHcollectAnaHour, hana, htmpA, Proc.wp_bind]
  refine Proc.wp_mono (fun m₁ _ hm₁ => ?_) (wp_unitTurns L H hana hprocess hkey)
  obtain ⟨hunits, -⟩ := hm₁
  rw [Proc.wp_bind, wp_sprintf H.file, Proc.wp_bind, wp_writeFile, Proc.wp_bind, wp_writeFile]
  refine ⟨hmem, hmem, ?_⟩
  have hne : ∀ s, d.analysis [joinPath [dir, s]] ≠ d.analysis [dir] := by
    intro s h
    exact analysis_notMem_below L.ana.1.2 dir s (h ▸ analysis_mem_below _)
  refine Proc.wp_mono (fun m₂ _ hm₂ => ⟨hm₂.1, fun s hs => ?_⟩)
    (wp_catTurns L H hana (Function.update_self _ _ _) fun s hs => ?_)
  · rw [hm₂.2 _ (hne s), Function.update_of_ne (hne s), Function.update_of_ne (hne s)]
    exact hunits s hs
  · rw [Function.update_of_ne (hne s), Function.update_of_ne (hne s)]
    exact hunits s hs

/-- The program of an hour, given its configuration. -/
theorem wp_hourMain (L : d.Lawful site) {hour cfgFile : Bytes} (hname : Name hour)
    (hlength : hour.length < 6) (hdir : (joinPath [d.path, hour]).length < 1024)
    (hsubs : lcsSubdirs site (joinPath [d.path, hour]) = some (some subs))
    (H : d.HourFits site m (joinPath [d.path, hour]) subs) {file : Bytes}
    (hwritten : lcsDgenConfig d.r d.prefixshmkey d.path hour d.ana = some file)
    (hfile : m cfgFile = some file)
    (hcfg : cfgFile ∈ below (joinPath [d.path, hour])) :
    (hourMain site d.r cfgFile).wp (below (joinPath [d.path, hour])) m fun m' _ =>
      m' (d.analysis [joinPath [d.path, hour]]) =
        some (d.hourFile site m (joinPath [d.path, hour]) subs) ∧
      ∀ s ∈ subs, m' (d.analysis [joinPath [joinPath [d.path, hour], s]]) =
        d.minuteFile site m (joinPath [joinPath [d.path, hour], s]) := by
  have hkey := L.prefixshmkey_plain.clean
  have hkeyLength := L.keyLength
  have hana := L.ana.1.1.clean
  have hanaLength := L.ana.2
  obtain ⟨hunit, hunitLength⟩ := unitProcess_plain d.r
  have hpath : Plain (joinPath [d.path, hour]) := plain_joinPath L.path_plain (by simp [hname.1])
  let info : LcsTemplateInfo :=
    ⟨joinPath [d.path, hour], d.ana, d.r.unitProcess, d.prefixshmkey⟩
  let h : Handoff := .hour d.r ⟨d.prefixshmkey, by omega, hkey.noNul⟩
    ⟨d.path, L.path, L.path_plain.clean.noNul⟩ ⟨hour, hlength, hname.1.clean.noNul⟩
    ⟨d.ana, by omega, hana.noNul⟩
  have hlines : h.lines = templateLines info := by
    simp [h, info, Handoff.lines, templateLines, L.shared]
  have hclean : ∀ e ∈ templateLines info, Clean e.2 := by
    simp only [templateLines, List.forall_mem_cons, List.not_mem_nil, false_imp_iff, implies_true,
      and_true]
    exact ⟨hpath.clean, hana, hunit.clean, hkey⟩
  obtain ⟨n, htable, hlow, hhigh⟩ : ∃ n, h.table =
      reportKeys ++ [(ascii "prefixshmkey_0004:", .array n)] ∧ 512 ≤ n ∧ n ≤ 1024 := by
    have hshared := L.shared
    simp only [h, Handoff.table]
    revert hshared
    cases d.r with
    | a000007 => exact fun _ => ⟨512, rfl, by omega, by omega⟩
    | a000008 => exact fun _ => ⟨1024, rfl, by omega, by omega⟩
    | a000009 => exact fun _ => ⟨1024, rfl, by omega, by omega⟩
    | _ =>
      intro hshared
      cases hshared
  rw [hourMain, Proc.wp_bind]
  refine wp_lcsInitApp (h := h) trivial hwritten hfile hcfg hlines htable hdir
    (show d.ana.length < 64 by omega) (show d.r.unitProcess.length < 1024 by omega)
    (show d.prefixshmkey.length < n by omega) hhigh hclean ?_
  simp only [info, hsubs]
  exact wp_lcsHcollectAnaHour L H rfl rfl rfl

/-- What is in other directories has no part in what is left in one. -/
theorem eqOn_update {p path : Bytes} (hp : p ∉ below path) (file : Option Bytes) :
    Set.EqOn (Function.update m p file) m (below path) :=
  fun _ hq => Function.update_of_ne (ne_of_mem_of_not_mem hq hp) _ _

theorem HourFits.other (H : d.HourFits site m dir subs) {p : Bytes}
    (hp : ∀ s ∈ subs, p ∉ below (joinPath [dir, s])) (file : Option Bytes) :
    d.HourFits site (Function.update m p file) dir subs :=
  ⟨H.nodup, H.units, fun s hs => (H.writable s hs).congr (eqOn_update (hp s hs) file).symm,
    fun s hs => by
      rw [minuteFile_congr (eqOn_update (hp s hs) file)]
      exact H.small s hs, H.file⟩

/-- The thread of an hour. -/
theorem wp_lcsDgenSubtask (L : d.Lawful site) {hour : Bytes} (hname : Name hour)
    (hlength : hour.length < 6)
    (hconfig : site.hourProcess.length + (inDir [d.path, hour] d.ana ".config.cfg").length + 13 <
      1024)
    (hsubs : lcsSubdirs site (joinPath [d.path, hour]) = some (some subs))
    (H : d.HourFits site m (joinPath [d.path, hour]) subs) (hprocess : info.subprocess =
      site.hourProcess) (hkey : info.prefixshmkey = d.prefixshmkey) :
    (lcsDgenSubtask site d.r info d.path hour d.ana).wp (below (joinPath [d.path, hour])) m
      fun m' _ => m' (d.analysis [joinPath [d.path, hour]]) =
          some (d.hourFile site m (joinPath [d.path, hour]) subs) ∧
        ∀ s ∈ subs, m' (d.analysis [joinPath [joinPath [d.path, hour], s]]) =
          d.minuteFile site m (joinPath [joinPath [d.path, hour], s]) := by
  let cfgFile := inDir [joinPath [d.path, hour]] d.ana ".config.cfg"
  have hcfg : configPath d.path hour d.ana = cfgFile := inDir_nest d.path hour d.ana ".config.cfg"
  have hpath : Plain cfgFile := hcfg ▸
    plain_inDir (l := [hour]) L.path_plain (by simp [hname.1]) L.ana.1.1 plain_config
  have hnull : (ascii " > /dev/null").length = 12 := by decide
  have hlengthCfg : site.hourProcess.length + cfgFile.length + 13 < 1024 := hcfg ▸ hconfig
  have hdir : (joinPath [d.path, hour]).length < 1024 := by
    rw [inDir_two, List.length_append] at hconfig
    omega
  have hext : (47 : UInt8) ∉ ascii ".config.cfg" := by decide
  have hother : ∀ s, cfgFile ∉ below (joinPath [joinPath [d.path, hour], s]) :=
    inDir_notMem_below (by simp [L.ana.1.2, hext]) _
  obtain ⟨file, hwritten⟩ : ∃ file, lcsDgenConfig d.r d.prefixshmkey d.path hour d.ana =
      some file :=
    ⟨_, Option.bind_eq_some_iff.mpr ⟨_, intoArray_eq_some.mpr ⟨by rw [hcfg]; omega, rfl⟩, rfl⟩⟩
  have hmem : cfgFile ∈ below (joinPath [d.path, hour]) := inDir_mem_below _ _ _
  have hsame : ∀ s, d.minuteFile site (Function.update m cfgFile (some file))
      (joinPath [joinPath [d.path, hour], s]) =
        d.minuteFile site m (joinPath [joinPath [d.path, hour], s]) := fun s =>
    minuteFile_congr (eqOn_update (hother s) _)
  rw [lcsDgenSubtask, hprocess, hkey, hwritten]
  dsimp only
  rw [Proc.wp_bind, wp_writeFile, hcfg, wp_lcsBashCmd (by omega) L.hourProcess.1 hpath]
  refine ⟨hmem, Proc.wp_mono (fun m' _ hm' => ?_) (wp_hourMain L hname hlength hdir hsubs
    (H.other (fun s _ => hother s) (some file)) hwritten (Function.update_self _ _ _) hmem)⟩
  simpa only [hourFile, hsame] using hm'

theorem HourFits.congr {m' : Files} (H : d.HourFits site m dir subs)
    (h : Set.EqOn m m' (below dir)) : d.HourFits site m' dir subs :=
  ⟨H.nodup, H.units, fun s hs => (H.writable s hs).congr (h.mono (below_subset dir s)),
    fun s hs => by
      rw [← minuteFile_congr (h.mono (below_subset dir s))]
      exact H.small s hs, H.file⟩

theorem hourFile_congr {m' : Files} (h : Set.EqOn m m' (below dir)) :
    d.hourFile site m dir subs = d.hourFile site m' dir subs := by
  unfold hourFile
  congr 1
  ext1 s
  rw [minuteFile_congr (h.mono (below_subset dir s))]

end Hours

/-! ### A day -/

/-- The file of an hour. -/
def hourPath (d : Day) (hour : Bytes) : Bytes := d.analysis [joinPath [d.path, hour]]

/-- The files that a day is put together from. -/
def files (d : Day) (m : Files) : DayFiles Bytes :=
  ⟨m (d.analysis [d.path]), fun h => m (d.hourPath h)⟩

/-- The directories of a day can be worked on. -/
structure Tree (d : Day) (site : Site) (m : Files) (hours : List Bytes)
    (subs : Bytes → List Bytes) : Prop where
  listed : ∃ s, lcsCommSubdirExt allMemory d.path true (site.readdir d.path) ⟨none, 0, 0⟩ = some s ∧
    s.err = 0 ∧ sortedNames s = some (some hours)
  nodup : hours.Nodup
  name : ∀ h ∈ hours, Name h ∧ h.length < 6
  config : ∀ h ∈ hours,
    site.hourProcess.length + (inDir [d.path, h] d.ana ".config.cfg").length + 13 < 1024
  missing : ∀ h ∈ hours, m (d.hourPath h) = none →
    lcsSubdirs site (joinPath [d.path, h]) = some (some (subs h)) ∧
      d.HourFits site m (joinPath [d.path, h]) (subs h)

/-- What a run leaves: the day's file is put together from those of the hours, an hour without a
file has got one from its directories, and nothing else is touched. -/
structure Collected (d : Day) (site : Site) (m₀ : Files) (hours : List Bytes)
    (subs : Bytes → List Bytes) (m : Files) : Prop where
  dest : m (d.analysis [d.path]) = (concatHours (d.gen site m₀) hours (d.files m₀)).dest
  hour : ∀ h ∈ hours, m (d.hourPath h) = (concatHours (d.gen site m₀) hours (d.files m₀)).hour h
  unit : ∀ h ∈ hours, m₀ (d.hourPath h) = none → ∀ s ∈ subs h,
    m (d.analysis [joinPath [joinPath [d.path, h], s]]) =
      d.minuteFile site m₀ (joinPath [joinPath [d.path, h], s])
  other : ∀ p ≠ d.analysis [d.path],
    (∀ h ∈ hours, m₀ (d.hourPath h) = none → p ∉ below (joinPath [d.path, h])) → m p = m₀ p

/-- The same while threads are started, if each ran at once. -/
structure Started (d : Day) (site : Site) (m₀ : Files) (hours : List Bytes)
    (subs : Bytes → List Bytes) (as : List Bytes) (m : Files) : Prop where
  hour : ∀ h ∈ as, m (d.hourPath h) =
    afterSubtasks (d.gen site m₀) hours (d.files m₀).hour h
  unit : ∀ h ∈ as, m₀ (d.hourPath h) = none → ∀ s ∈ subs h,
    m (d.analysis [joinPath [joinPath [d.path, h], s]]) =
      d.minuteFile site m₀ (joinPath [joinPath [d.path, h], s])
  other : ∀ p, (∀ h ∈ as, m₀ (d.hourPath h) = none → p ∉ below (joinPath [d.path, h])) → m p = m₀ p

/-- The paths that the threads of some hours use. -/
def busy (d : Day) (m₀ : Files) (as : List Bytes) : Set Bytes :=
  {p | ∃ h ∈ as, m₀ (d.hourPath h) = none ∧ p ∈ below (joinPath [d.path, h])}

section Days

variable {d : Day} {site : Site} {m₀ m : Files} {hours : List Bytes} {subs : Bytes → List Bytes}
  {info : LcsTemplateInfo}

theorem busy_append_some {as : List Bytes} {h : Bytes} {file : Bytes}
    (hfile : m₀ (d.hourPath h) = some file) : d.busy m₀ (as ++ [h]) = d.busy m₀ as := by
  ext p
  simp only [busy, Set.mem_ofPred_eq, List.mem_append, List.mem_singleton]
  constructor
  · rintro ⟨g, hg | rfl, hnone, hp⟩
    · exact ⟨g, hg, hnone, hp⟩
    · rw [hfile] at hnone
      cases hnone
  · rintro ⟨g, hg, hnone, hp⟩
    exact ⟨g, Or.inl hg, hnone, hp⟩

theorem busy_append_none {as : List Bytes} {h : Bytes} (hnone : m₀ (d.hourPath h) = none) :
    d.busy m₀ (as ++ [h]) = d.busy m₀ as ∪ below (joinPath [d.path, h]) := by
  ext p
  simp only [busy, Set.mem_ofPred_eq, List.mem_append, List.mem_singleton, Set.mem_union]
  constructor
  · rintro ⟨g, hg | rfl, hgnone, hp⟩
    · exact Or.inl ⟨g, hg, hgnone, hp⟩
    · exact Or.inr hp
  · rintro (⟨g, hg, hgnone, hp⟩ | hp)
    · exact ⟨g, Or.inl hg, hgnone, hp⟩
    · exact ⟨h, Or.inr rfl, hnone, hp⟩

/-- The threads of other hours keep away from an hour. -/
theorem Tree.disjoint_busy (T : d.Tree site m₀ hours subs) {as bs : List Bytes} {h : Bytes}
    (hhours : hours = as ++ h :: bs) : Disjoint (below (joinPath [d.path, h])) (d.busy m₀ as) := by
  have hnodup := T.nodup
  rw [Set.disjoint_left]
  rintro p hp ⟨g, hg, -, hpg⟩
  have hne : g ≠ h := by
    rintro rfl
    rw [hhours] at hnodup
    exact (List.nodup_append.mp hnodup).2.2 g hg g List.mem_cons_self rfl
  have hgmem : g ∈ hours := by simp [hhours, hg]
  have hhmem : h ∈ hours := by simp [hhours]
  exact Set.disjoint_left.mp (below_disjoint (T.name g hgmem).1.2 (T.name h hhmem).1.2 hne d.path)
    hpg hp

theorem hourPath_mem_below (d : Day) (h : Bytes) : d.hourPath h ∈ below (joinPath [d.path, h]) :=
  analysis_mem_below _

theorem Started.eqOn {as : List Bytes} (I : d.Started site m₀ hours subs as m) {S : Set Bytes}
    (hS : Disjoint S (d.busy m₀ as)) : Set.EqOn m₀ m S := fun p hp =>
  (I.other p fun h hh hnone hmem => Set.disjoint_left.mp hS hp ⟨h, hh, hnone, hmem⟩).symm

/-- An hour with a file. -/
theorem Started.keep {as : List Bytes} {h : Bytes} {file : Bytes}
    (I : d.Started site m₀ hours subs as m) (hfile : m₀ (d.hourPath h) = some file)
    (hm : m (d.hourPath h) = some file) : d.Started site m₀ hours subs (as ++ [h]) m := by
  constructor
  · intro g hg
    rcases List.mem_append.mp hg with hg | hg
    · exact I.hour g hg
    · rw [List.mem_singleton.mp hg, hm, afterSubtasks, files]
      simp only [hfile, reduceCtorEq, and_false, if_false]
  · intro g hg hnone
    rcases List.mem_append.mp hg with hg | hg
    · exact I.unit g hg hnone
    · rw [List.mem_singleton.mp hg, hfile] at hnone
      cases hnone
  · exact fun p hp => I.other p fun g hg => hp g (List.mem_append_left _ hg)

/-- An hour whose thread has run. -/
theorem Started.run {as bs : List Bytes} {h : Bytes} {m' : Files} (T : d.Tree site m₀ hours subs)
    (hhours : hours = as ++ h :: bs) (I : d.Started site m₀ hours subs as m)
    (hnone : m₀ (d.hourPath h) = none)
    (hfile : m' (d.hourPath h) = some (d.hourFile site m (joinPath [d.path, h]) (subs h)))
    (hunit : ∀ s ∈ subs h, m' (d.analysis [joinPath [joinPath [d.path, h], s]]) =
      d.minuteFile site m (joinPath [joinPath [d.path, h], s]))
    (hframe : ∀ p ∉ below (joinPath [d.path, h]), m' p = m p) :
    d.Started site m₀ hours subs (as ++ [h]) m' := by
  have hmem : h ∈ hours := by simp [hhours]
  have hdisj := T.disjoint_busy hhours
  have hsame : Set.EqOn m m₀ (below (joinPath [d.path, h])) := (I.eqOn hdisj).symm
  have hother : ∀ g ∈ as,
      Disjoint (below (joinPath [d.path, g])) (below (joinPath [d.path, h])) := by
    intro g hg
    have hnodup := T.nodup
    have hgmem : g ∈ hours := by simp [hhours, hg]
    refine below_disjoint (T.name g hgmem).1.2 (T.name h hmem).1.2 ?_ d.path
    rintro rfl
    rw [hhours] at hnodup
    exact (List.nodup_append.mp hnodup).2.2 g hg g List.mem_cons_self rfl
  constructor
  · intro g hg
    rcases List.mem_append.mp hg with hg | hg
    · rw [hframe _ (Set.disjoint_left.mp (hother g hg) (d.hourPath_mem_below g))]
      exact I.hour g hg
    · rw [List.mem_singleton.mp hg, hfile, hourFile_congr hsame, afterSubtasks,
        if_pos ⟨hmem, hnone⟩, gen, (T.missing h hmem hnone).1]
  · intro g hg hgnone s hs
    rcases List.mem_append.mp hg with hg | hg
    · rw [hframe _ (Set.disjoint_left.mp (hother g hg) (below_subset _ s (analysis_mem_below _)))]
      exact I.unit g hg hgnone s hs
    · obtain rfl := List.mem_singleton.mp hg
      rw [hunit s hs]
      exact minuteFile_congr (hsame.mono (below_subset _ s))
  · intro p hp
    rw [hframe p (hp h (by simp) hnone)]
    exact I.other p fun g hg => hp g (List.mem_append_left _ hg)

variable (info) in
/-- The loop that starts the threads. -/
theorem wp_startHours (L : d.Lawful site) (T : d.Tree site m₀ hours subs)
    (hana : info.nameAna = d.ana) (hprocess : info.subprocess = site.hourProcess)
    (hkey : info.prefixshmkey = d.prefixshmkey) {next : ℕ → Main Bytes (Option Bytes)}
    {Q : Files → Prop}
    (hnext : ∀ m, d.Started site m₀ hours subs hours m →
      (next (hours.countP fun h => (m₀ (d.hourPath h)).isNone)).wp (d.busy m₀ hours) m Q)
    (as bs : List Bytes) (m : Files) (hhours : hours = as ++ bs)
    (I : d.Started site m₀ hours subs as m) :
    (startHours site d.r info d.path next bs
      (as.countP fun h => (m₀ (d.hourPath h)).isNone)).wp (d.busy m₀ as) m Q := by
  induction bs generalizing as m with
  | nil =>
    rw [List.append_nil] at hhours
    subst hhours
    exact hnext m I
  | cons h bs ih =>
    have hmem : h ∈ hours := by simp [hhours]
    obtain ⟨hname, hlength⟩ := T.name h hmem
    have hconfig := T.config h hmem
    have hanaLength := L.ana.2
    have htmp : (inDir [d.path, h] d.ana ".analysis").length < 1024 := by
      have hascii : (ascii ".analysis").length = 9 ∧ (ascii ".config.cfg").length = 11 := by decide
      rw [inDir_two, List.length_append, List.length_cons, List.length_append] at hconfig ⊢
      omega
    have hdisj := T.disjoint_busy hhours
    have hpath := d.hourPath_mem_below h
    have hfree : d.hourPath h ∉ d.busy m₀ as := Set.disjoint_left.mp hdisj hpath
    have hsame : m (d.hourPath h) = m₀ (d.hourPath h) := (I.eqOn hdisj hpath).symm
    have hhours' : hours = as ++ [h] ++ bs := by
      rw [hhours, List.append_assoc, List.singleton_append]
    rw [startHours, Main.wp_call, hana, Proc.wp_bind, wp_sprintf htmp, inDir_analysis, wp_readFile]
    refine ⟨hfree, ?_⟩
    rw [← hourPath, hsame]
    cases hm : m₀ (d.hourPath h) with
    | some file =>
      have hnext' := ih (as ++ [h]) m hhours' (I.keep hm (hsame.trans hm))
      rw [busy_append_some hm, List.countP_append, List.countP_singleton, hm] at hnext'
      exact hnext'
    | none =>
      obtain ⟨hsubs, H⟩ := T.missing h hmem hm
      dsimp only
      rw [Main.wp_call, Proc.wp_bind, wp_sprintf L.path, Proc.wp_bind, wp_sprintf hlength,
        Proc.wp_bind, wp_sprintf (by omega), Proc.wp_pure]
      refine ⟨below (joinPath [d.path, h]), hdisj, Proc.wp_mono (fun m' _ hm' => ?_) (Proc.wp_frame
        (wp_lcsDgenSubtask L hname hlength hconfig hsubs (H.congr (I.eqOn hdisj)) hprocess hkey))⟩
      obtain ⟨⟨hfile, hunit⟩, hframe⟩ := hm'
      have hnext' := ih (as ++ [h]) m' hhours' (I.run T hhours hm hfile hunit hframe)
      rw [busy_append_none hm, List.countP_append, List.countP_singleton, hm] at hnext'
      exact hnext'

theorem dest_notMem_below (L : d.Lawful site) (h : Bytes) :
    d.analysis [d.path] ∉ below (joinPath [d.path, h]) := analysis_notMem_below L.ana.1.2 d.path h

/-- The last loop. -/
theorem wp_sumTurns (L : d.Lawful site) (T : d.Tree site m₀ hours subs)
    (hana : info.nameAna = d.ana) {U : Set Bytes} (hU : U = ∅) (hour : Bytes → Option Bytes)
    (hhour : ∀ h ∈ hours, m (d.hourPath h) = hour h) :
    (forM hours (sumTurn info d.path (d.analysis [d.path]))).wp Uᶜ m fun m' _ =>
      m' (d.analysis [d.path]) =
        hours.foldl (fun dest h => lcsHcollectSum dest (hour h)) (m (d.analysis [d.path])) ∧
      ∀ p ≠ d.analysis [d.path], m' p = m p := by
  refine Proc.wp_forM (fun as m' => m' (d.analysis [d.path]) =
      as.foldl (fun dest h => lcsHcollectSum dest (hour h)) (m (d.analysis [d.path])) ∧
    ∀ p ≠ d.analysis [d.path], m' p = m p) ?_ ⟨rfl, fun _ _ => rfl⟩
  rintro as h bs m₁ hhours ⟨hdest, hrest⟩
  have hmem : h ∈ hours := by simp [hhours]
  obtain ⟨hname, hlength⟩ := T.name h hmem
  have hconfig := T.config h hmem
  have hascii : (ascii ".analysis").length = 9 ∧ (ascii ".config.cfg").length = 11 ∧
      (ascii "cat ").length = 4 ∧ (ascii " >> ").length = 4 := by decide
  obtain ⟨hanalysis, hext, hcat, hto⟩ := hascii
  have hprocess : 0 < site.hourProcess.length := List.length_pos_of_ne_nil L.hourProcess.1.1
  have hsrc : (inDir [d.path, h] d.ana ".analysis").length + 15 < 1024 := by
    rw [inDir_two, List.length_append, List.length_cons, List.length_append] at hconfig ⊢
    omega
  have hshorter : (d.analysis [d.path]).length < (inDir [d.path, h] d.ana ".analysis").length := by
    rw [analysis, inDir_one, inDir_two, joinPath_cons_cons, joinPath_singleton]
    simp only [List.length_append, List.length_cons]
    omega
  have hcmd : (ascii "cat " ++ inDir [d.path, h] d.ana ".analysis" ++ ascii " >> " ++
      d.analysis [d.path]).length < 2048 := by
    simp only [List.length_append]
    omega
  have hplainSrc : Plain (inDir [d.path, h] d.ana ".analysis") :=
    plain_inDir L.path_plain (by simp [hname.1]) L.ana.1.1 plain_analysis
  have hplainDest : Plain (d.analysis [d.path]) :=
    plain_inDir L.path_plain (by simp) L.ana.1.1 plain_analysis
  have hne : d.hourPath h ≠ d.analysis [d.path] := fun heq =>
    dest_notMem_below L h (heq ▸ d.hourPath_mem_below h)
  have hsrcPath : inDir [d.path, h] d.ana ".analysis" = d.hourPath h := inDir_analysis d.path h
  rw [sumTurn, hana, Proc.wp_bind, wp_sprintf (by omega), Proc.wp_bind, wp_sprintf hcmd,
    if_pos ⟨hplainSrc, hplainDest⟩, Proc.wp_bind, wp_readFile, Proc.wp_bind, wp_readFile,
    wp_writeFile, hU, Set.compl_empty]
  refine ⟨Set.mem_univ _, Set.mem_univ _, Set.mem_univ _, ?_, fun p hp => ?_⟩
  · rw [Function.update_self, hdest, hsrcPath, hrest _ hne, hhour h hmem, List.foldl_append]
    rfl
  · rw [Function.update_of_ne hp]
    exact hrest p hp

/-- What is done once the threads have ended. -/
theorem wp_afterHours (L : d.Lawful site) (T : d.Tree site m₀ hours subs)
    (hana : info.nameAna = d.ana) (I : d.Started site m₀ hours subs hours m) :
    (Main.call (if (hours.countP fun h => (m₀ (d.hourPath h)).isNone) ≠ 0 then
        writeFile (d.analysis [d.path]) none else pure ()) fun _ =>
      .join (.call (forM hours (sumTurn info d.path (d.analysis [d.path]))) fun _ => .done)).wp
        (d.busy m₀ hours) m (d.Collected site m₀ hours subs) := by
  have hfree : d.analysis [d.path] ∉ d.busy m₀ hours := fun ⟨h, _, _, hmem⟩ =>
    dest_notMem_below L h hmem
  have hne : ∀ h, d.hourPath h ≠ d.analysis [d.path] := fun h heq =>
    dest_notMem_below L h (heq ▸ d.hourPath_mem_below h)
  have hneUnit : ∀ h s, d.analysis [joinPath [joinPath [d.path, h], s]] ≠ d.analysis [d.path] :=
    fun h s heq => dest_notMem_below L h (heq ▸ below_subset _ s (analysis_mem_below _))
  have hlast : ∀ m₁ : Files, (∀ p ≠ d.analysis [d.path], m₁ p = m p) →
      m₁ (d.analysis [d.path]) = keptFile hours (d.files m₀) →
      (Main.join (.call (forM hours (sumTurn info d.path (d.analysis [d.path]))) fun _ => .done)).wp
        (d.busy m₀ hours) m₁ (d.Collected site m₀ hours subs) := by
    intro m₁ hsame hkept
    have hhour : ∀ h ∈ hours, m₁ (d.hourPath h) =
        afterSubtasks (d.gen site m₀) hours (d.files m₀).hour h := fun h hh =>
      (hsame _ (hne h)).trans (I.hour h hh)
    rw [Main.wp, Main.wp_call]
    refine Proc.wp_mono (fun m' _ hm' => ⟨rfl, ?_⟩) (wp_sumTurns L T hana rfl _ hhour)
    obtain ⟨hdest, hrest⟩ := hm'
    constructor
    · rw [hdest, hkept]
      rfl
    · intro h hh
      rw [hrest _ (hne h)]
      exact hhour h hh
    · intro h hh hnone s hs
      rw [hrest _ (hneUnit h s), hsame _ (hneUnit h s)]
      exact I.unit h hh hnone s hs
    · intro p hp hnot
      rw [hrest p hp, hsame p hp]
      exact I.other p hnot
  rw [Main.wp_call]
  by_cases hcount : (hours.countP fun h => (m₀ (d.hourPath h)).isNone) ≠ 0
  · rw [if_pos hcount, wp_writeFile]
    refine ⟨hfree, hlast _ (fun p hp => Function.update_of_ne hp _ _) ?_⟩
    rw [Function.update_self, keptFile]
    exact (if_pos hcount).symm
  · rw [if_neg hcount, Proc.wp_pure]
    refine hlast m (fun _ _ => rfl) ?_
    rw [I.other _ fun h _ _ => dest_notMem_below L h, keptFile]
    exact (if_neg hcount).symm

/-- The program of a day, each thread run where it is started. -/
theorem wp_dayMain (L : d.Lawful site) (T : d.Tree site m₀ hours subs) {cfgFile : Bytes}
    (hfile : m₀ cfgFile = d.config site) :
    (dayMain site d.r cfgFile).wp ∅ m₀ (d.Collected site m₀ hours subs) := by
  have hkey := L.prefixshmkey_plain.clean
  have hkeyLength := L.keyLength
  have hanaLength := L.ana.2
  have hprocessLength := L.hourProcess.2
  let info : LcsTemplateInfo := ⟨d.path, d.ana, site.hourProcess, d.prefixshmkey⟩
  let h : Handoff := .day d.r d.user L.user.clean.noNul
    ⟨d.rootPath, L.rootPath.2, L.rootPath.1.clean.noNul⟩
    ⟨d.server, L.server.2, L.server.1.clean.noNul⟩ ⟨d.dbname, L.dbname.2, L.dbname.1.clean.noNul⟩
    ⟨d.date, L.date.2, L.date.1.clean.noNul⟩ ⟨d.ana, L.ana.2, L.ana.1.1.clean.noNul⟩
    ⟨site.hourProcess, L.hourProcess.2, L.hourProcess.1.clean.noNul⟩
  have hlines : h.lines = templateLines info := rfl
  have htakes : d.r.takesPrefix = true := by
    have hshared := L.shared
    revert hshared
    cases d.r <;> decide
  have htable : h.table = reportKeys ++ [(ascii "prefixshmkey_0004:", .array 512)] :=
    if_pos htakes
  have hq : h.Quiet := fun hnot => by
    rw [htakes] at hnot
    cases hnot
  obtain ⟨file, hwritten⟩ : ∃ file, h.file = some file :=
    ⟨_, Handoff.file_eq_some.mpr ⟨trivial, rfl⟩⟩
  have hclean : ∀ e ∈ templateLines info, Clean e.2 := by
    simp only [templateLines, List.forall_mem_cons, List.not_mem_nil, false_imp_iff, implies_true,
      and_true]
    exact ⟨L.path_plain.clean, L.ana.1.1.clean, L.hourProcess.1.clean, hkey⟩
  obtain ⟨s, hlist, herr, hnames⟩ := T.listed
  rw [dayMain, Main.wp_call, Set.compl_empty]
  refine wp_lcsInitApp (h := h) hq hwritten (hfile.trans hwritten) (Set.mem_univ _) hlines
    htable L.path
    (show d.ana.length < 64 by omega) (show site.hourProcess.length < 1024 by omega)
    (show d.prefixshmkey.length < 512 by omega) (by omega) hclean ?_
  simp only [info, hlist, herr, ne_eq, not_true, if_false, hnames]
  rw [lcsHcollectAnaDay, Main.wp_call]
  refine (wp_sprintf L.dest).mpr ?_
  have hstart : d.Started site m₀ hours subs [] m₀ := ⟨by simp, by simp, fun _ _ => rfl⟩
  have hbusy : d.busy m₀ [] = ∅ := by
    ext p
    simp [busy]
  rw [← hbusy]
  exact wp_startHours info L T rfl rfl rfl (fun m I => wp_afterHours L T rfl I) [] hours m₀ rfl
    hstart

end Days

/-- A day with one hour, and one directory in it. -/
def sample : Day :=
  ⟨.a000007, ascii "u", ascii "/r", ascii "s", ascii "b", ascii "2017-05-04", ascii "A_000007"⟩

end Day

def direntOf (name : CStr 256) : Dirent := ⟨name, some .directory⟩

/-- The agent 15, as it stands in the database. -/
def sampleAgent : AgentRow :=
  .ofTexts [ascii "1", ascii "0", ascii "15", ascii "sales", [], [], [], [], [], [], [], [],
    ascii "ann", [], [], [], [], [], ascii "101"] (by decide +kernel)

/-- What `shmcreate` leaves of the one agent. -/
def sampleShm : SharedMemory where
  agents key :=
    if key = Day.sample.prefixshmkey ++ ascii ".agent.num" then .readable 1 else .refused
  agentCells _ _ :=
    match lcsShmLoad ⟨.mapped, .mapped⟩ [sampleAgent] with
    | some (some cells) => .readable cells
    | _ => .unreadable
  audd _ := .unreadable
  auddCells _ _ := .unreadable

/-- A call that the agent took. -/
def sampleRow : ResultRow :=
  ⟨12, .ofTexts [ascii "7", ascii "10:05", ascii "0123", ascii "A", ascii "ANSWERED",
    ascii "TRANSFER", ascii "3", ascii "15", ascii "101", ascii "SIP/101", ascii "42",
    ascii "OK"] (by decide +kernel)⟩

/-- The database of `sample` has the one call. -/
def sampleSite : Site where
  readdir path :=
    if path = Day.sample.path then some [direntOf ⟨ascii "10", by decide, by decide⟩]
    else if path = joinPath [Day.sample.path, ascii "10"] then
      some [direntOf ⟨ascii "05", by decide, by decide⟩]
    else none
  query _ := some []
  shm := sampleShm
  select _ _ := [sampleRow]
  hourProcess := ascii "../A_000007_hour/lcs_A_000007_hour"

def sampleFiles : Files := fun p =>
  if p = ascii "day.cfg" then Day.sample.config sampleSite
  else if p = ascii "/r/s/b/2017/05/04/10/05/lcs.db" then some []
  else none

/-- The context and the name of the agent stand in the line, and the time, as the extension does. -/
def sampleLine : Bytes :=
  TextFile.tabLine [ascii "7", ascii "10:05", ascii "0123", ascii "A", ascii "ANSWERED",
    ascii "TRANSFER", ascii "sales", ascii "3", ascii "15", ascii "ann", ascii "101", ascii "42",
    ascii "OK"]

theorem sample_lawful : Day.sample.Lawful sampleSite := by
  constructor <;> decide +kernel

theorem sample_tree :
    Day.sample.Tree sampleSite sampleFiles [ascii "10"] (fun _ => [ascii "05"]) where
  listed := ⟨⟨some [.ptr (ascii "10"), .null], 1, 0⟩, rfl, rfl, by decide +kernel⟩
  nodup := List.nodup_singleton _
  name := by decide +kernel
  config := by decide +kernel
  missing := by
    simp only [List.forall_mem_singleton]
    refine fun _ => ⟨by decide +kernel, List.nodup_singleton _, ?_, ?_, ?_, by decide +kernel⟩
    · simp only [List.forall_mem_singleton]
      constructor <;> decide +kernel
    · simp only [List.forall_mem_singleton]
      intro _ mapped hmapped rows hrows row hrow
      have hline : (lcsLoadshm sampleShm .a000007 Day.sample.prefixshmkey).all fun loaded =>
          loaded.all fun mapped => (lcsExecCbtrue .a000007 mapped sampleRow).isSome := by
        decide +kernel
      rw [Day.rows] at hrows
      obtain ⟨sql, -, hrows⟩ := Option.bind_eq_some_iff.mp hrows
      obtain ⟨base, -, hrows⟩ := Option.bind_eq_some_iff.mp hrows
      cases hrows
      have hloaded : lcsLoadshm sampleShm .a000007 Day.sample.prefixshmkey = some (some mapped) :=
        hmapped
      rw [hloaded] at hline
      rw [List.mem_singleton.mp hrow]
      exact hline
    · have hfile : Day.sample.minuteFile sampleSite sampleFiles
          (joinPath [joinPath [Day.sample.path, ascii "10"], ascii "05"]) = some sampleLine := by
        decide +kernel
      have hsmall : sampleLine.length + 1 < 2 ^ 32 := by decide +kernel
      simp only [List.forall_mem_singleton, hfile, Option.mem_some_iff]
      rintro file rfl
      exact hsmall

namespace Day

end Day

end MemoryLeak.Cluster.Reports
