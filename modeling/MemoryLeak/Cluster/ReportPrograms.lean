import MemoryLeak.Cluster.ReportLines
import MemoryLeak.Cluster.Listing
import MemoryLeak.Cluster.DayCollect
import MemoryLeak.ForkJoin

/-!
# The programs of a report

A report that reads agents from shared memory is three programs. That of a day starts, in a thread
for each hour without a file, that of the hour; this one starts that of five minutes for each of
its directories without a file. The files of the parts are then put together. The programs hand
paths and names on in configurations.
-/
namespace MemoryLeak.Cluster.Reports
open MemoryLeak.CBytes MemoryLeak.CText MemoryLeak.KeyedText MemoryLeak.SlotArray
open MemoryLeak.ForkJoin MemoryLeak.Cluster.Configs

/-- The files, under their paths. -/
abbrev Files := Bytes → Option Bytes

/-- A program that reads and writes files. -/
abbrev Prog := Proc Bytes (Option Bytes)

/-- What the programs find and leave as it is. -/
structure Site where
  /-- The entries of a directory. -/
  readdir : Bytes → Option (List Dirent)
  /-- The files with queries. -/
  query : Bytes → Option Bytes
  /-- Shared memory. -/
  shm : SharedMemory
  /-- The rows of a query on a database that SQLite hands to the callback. -/
  select : Bytes → Bytes → List ResultRow
  /-- The program of an hour is installed here. -/
  hourProcess : Bytes

/-! ### Files and texts -/

def readFile (path : Bytes) : Prog (Option Bytes) := .read path .ret

def writeFile (path : Bytes) (file : Option Bytes) : Prog Unit := .write path file (.ret ())

/-- Into an array of some size. -/
def sprintf (size : ℕ) (s : Bytes) : Prog Bytes := if s.length < size then .ret s else .fault

/-- A path `"%s/%s.analysis"` or `"%s/%s/%s.analysis"`, and so on. -/
def inDir (dirs : List Bytes) (ana : Bytes) (extension : String) : Bytes :=
  joinPath (dirs ++ [ana ++ ascii extension])

/-- `lcs_file_text`; the size is an `unsigned int`, and one byte more is allocated. -/
def lcsFileText (path : Bytes) : Prog (Option Bytes) := do
  match ← readFile path with
  | none => pure none
  | some file =>
    let sz := file.length % 2 ^ 32
    if sz + 1 < 2 ^ 32 then pure (some (file.take sz)) else .fault

/-- `lcs_cfg_load`; there is no text to cut where the file could not be opened. -/
def lcsCfgLoad (T : Table) (cfgFile : Bytes) : Prog Info := do
  match ← lcsFileText cfgFile with
  | none => .fault
  | some file =>
    match load T file with
    | none => .fault
    | some info => pure info

/-- A field of `lcs_info_cfg`, if it is a string. -/
def field (info : Info) (key : String) : Prog Bytes :=
  if (0 : UInt8) ∈ info (ascii key) then pure (text (info (ascii key))) else .fault

/-- A byte that has no meaning for a shell. -/
def plainByte (c : UInt8) : Bool :=
  isDigit c || (65 ≤ c.toNat && c.toNat ≤ 90) || (97 ≤ c.toNat && c.toNat ≤ 122) ||
    c = 45 || c = 46 || c = 47 || c = 95

/-- A word that a shell takes as it stands. -/
def Plain (s : Bytes) : Prop := s ≠ [] ∧ ∀ c ∈ s, plainByte c = true

instance (s : Bytes) : Decidable (Plain s) := inferInstanceAs (Decidable (_ ∧ _))

/-- `lcs_bash_cmd` on a command that starts a program with one argument. -/
def lcsBashCmd (programs : List (Bytes × (Bytes → Prog Unit))) (size : ℕ)
    (subprocess path rest : Bytes) : Prog Unit := do
  let _ ← sprintf size (subprocess ++ 32 :: (path ++ rest))
  if Plain subprocess ∧ Plain path then
    match programs.lookup subprocess with
    | none => .fault
    | some main => main path
  else .fault

/-! ### Five minutes -/

/-- `lcs_exec_sql`; the file is there, and empty, before the rows are. -/
def lcsExecSql (site : Site) (r : Report) (m : Mapped) (sql db writepath : Bytes) : Prog Unit := do
  writeFile writepath (some [])
  let base ← readFile db
  match linesOf r m (site.select sql (base.getD [])) with
  | none => .fault
  | some lines => writeFile writepath (some lines)

/-- `lcs_unit_analysis`. -/
def lcsUnitAnalysis (site : Site) (r : Report) (path name : Bytes) (m : Mapped) : Prog Unit := do
  let qpath ← sprintf 1024 (ascii "../sql/" ++ name ++ ascii ".sql")
  match site.query qpath with
  | none => pure ()
  | some sql => do
    let db ← sprintf 1024 (joinPath [path, ascii "lcs.db"])
    match ← readFile db with
    | none => pure ()
    | some _ => do
      let writepath ← sprintf 1024 (inDir [path] name ".analysis")
      lcsExecSql site r m sql db writepath

/-- `main` of the program of five minutes. -/
def unitMain (site : Site) (r : Report) (cfgFile : Bytes) : Prog Unit := do
  let info ← lcsCfgLoad (unitKeys r) cfgFile
  let prefixshmkey ← field info "prefixshmkey_0003:"
  match lcsLoadshm site.shm r prefixshmkey with
  | none => .fault
  | some none => pure ()
  | some (some m) => do
    let path ← field info "targetpath_0001:"
    let name ← field info "name_ana_0002:"
    lcsUnitAnalysis site r path name m

/-! ### An hour -/

/-- `lcs_info_cfg` of the programs of an hour and of a day. -/
structure LcsTemplateInfo where
  targetpath : Bytes
  nameAna : Bytes
  subprocess : Bytes
  prefixshmkey : Bytes

def lcsInitApp (T : Table) (cfgFile : Bytes) : Prog LcsTemplateInfo := do
  let info ← lcsCfgLoad T cfgFile
  let targetpath ← field info "targetpath_0001:"
  let nameAna ← field info "name_ana_0002:"
  let subprocess ← field info "subprocess_0003:"
  let prefixshmkey ← field info "prefixshmkey_0004:"
  pure ⟨targetpath, nameAna, subprocess, prefixshmkey⟩

/-- The names in an array of them, sorted; none where there is no array. -/
def sortedNames (s : Listing) : Option (Option (List Bytes)) :=
  match s.result with
  | none => some none
  | some arrdir => do
    let arr ← SortCall.run s.count ⟨some arrdir, 0, s.count - 1⟩
    let names ← walk arr
    some (some names)

/-- The sorted directories of a directory. -/
def lcsSubdirs (site : Site) (path : Bytes) : Option (Option (List Bytes)) :=
  (lcsCommSubdirExt allMemory path true (site.readdir path) ⟨none, 0, 0⟩).bind sortedNames

/-- The output of the program of five minutes; only that of `A_000007` is thrown away. -/
def unitOutput (r : Report) : Bytes := if r = .a000007 then ascii " > /dev/null" else []

/-- `lcs_unit_gen`, with the file that `lcs_unit_config` writes. -/
def lcsUnitGen (site : Site) (r : Report) (info : LcsTemplateInfo) (dir sub : Bytes) :
    Prog Unit := do
  let path := configPath dir sub info.nameAna
  match lcsUnitConfig r info.prefixshmkey dir sub info.nameAna with
  | none => .fault
  | some file => do
    writeFile path (some file)
    lcsBashCmd [(r.unitProcess, unitMain site r)] 2048 info.subprocess path (unitOutput r)

/-- A turn of the first loop of an hour. -/
def unitTurn (site : Site) (r : Report) (info : LcsTemplateInfo) (dir sub : Bytes) :
    Prog Unit := do
  let tmp ← sprintf 1024 (inDir [dir, sub] info.nameAna ".analysis")
  match ← readFile tmp with
  | some _ => pure ()
  | none => lcsUnitGen site r info dir sub

/-- A turn of the second. -/
def catTurn (info : LcsTemplateInfo) (dir tmpA sub : Bytes) : Prog Unit := do
  let tmp ← sprintf 1024 (inDir [dir, sub] info.nameAna ".analysis")
  match ← lcsFileText tmp with
  | none => pure ()
  | some t => do
    let file ← readFile tmpA
    writeFile tmpA (some (file.getD [] ++ text t))

/-- `lcs_hcollect_ana` of the program of an hour. -/
def lcsHcollectAnaHour (site : Site) (r : Report) (info : LcsTemplateInfo) (dir : Bytes)
    (subs : List Bytes) : Prog Unit := do
  forM subs (unitTurn site r info dir)
  let tmpA ← sprintf 1024 (inDir [dir] info.nameAna ".analysis")
  writeFile tmpA none
  writeFile tmpA (some [])
  forM subs (catTurn info dir tmpA)

/-- `main` of the program of an hour. -/
def hourMain (site : Site) (r : Report) (cfgFile : Bytes) : Prog Unit := do
  let info ← lcsInitApp (hourKeys r) cfgFile
  match lcsSubdirs site info.targetpath with
  | none => .fault
  | some none => pure ()
  | some (some subs) => lcsHcollectAnaHour site r info info.targetpath subs

/-! ### A day -/

/-- `lcs_dgen_subtask`, with the file that `lcs_dgen_config` writes. -/
def lcsDgenSubtask (site : Site) (r : Report) (info : LcsTemplateInfo) (day hour ana : Bytes) :
    Prog Unit := do
  let path := configPath day hour ana
  match lcsDgenConfig r info.prefixshmkey day hour ana with
  | none => .fault
  | some file => do
    writeFile path (some file)
    lcsBashCmd [(site.hourProcess, hourMain site r)] 1024 info.subprocess path
      (ascii " > /dev/null")

/-- The loop that starts a thread for each hour without a file, and counts them. -/
def startHours (site : Site) (r : Report) (info : LcsTemplateInfo) (dir : Bytes)
    (next : ℕ → Main Bytes (Option Bytes)) : List Bytes → ℕ → Main Bytes (Option Bytes)
  | [], count => next count
  | sub :: rest, count =>
    .call (do
        let tmp ← sprintf 1024 (inDir [dir, sub] info.nameAna ".analysis")
        readFile tmp) fun
      | some _ => startHours site r info dir next rest count
      | none =>
        .call (do
            let dir ← sprintf 1024 dir
            let sub ← sprintf 6 sub
            let ana ← sprintf 64 info.nameAna
            pure (lcsDgenSubtask site r info dir sub ana)) fun child =>
          .fork child (startHours site r info dir next rest (count + 1))

/-- A turn of the last loop of a day: `lcs_hcollect_sum`. -/
def sumTurn (info : LcsTemplateInfo) (dir dest sub : Bytes) : Prog Unit := do
  let src ← sprintf 1024 (inDir [dir, sub] info.nameAna ".analysis")
  let _ ← sprintf 2048 (ascii "cat " ++ src ++ ascii " >> " ++ dest)
  if Plain src ∧ Plain dest then do
    let old ← readFile dest
    let file ← readFile src
    writeFile dest (lcsHcollectSum old file)
  else .fault

/-- `lcs_hcollect_ana` of the program of a day. -/
def lcsHcollectAnaDay (site : Site) (r : Report) (info : LcsTemplateInfo) (dir : Bytes)
    (subs : List Bytes) : Main Bytes (Option Bytes) :=
  .call (sprintf 1024 (inDir [dir] info.nameAna ".analysis")) fun dest =>
    startHours site r info dir (fun count =>
      .call (if count ≠ 0 then writeFile dest none else pure ()) fun _ =>
        .join (.call (forM subs (sumTurn info dir dest)) fun _ => .done)) subs 0

/-- `main` of the program of a day, which gives up where an entry could not be looked at. -/
def dayMain (site : Site) (r : Report) (cfgFile : Bytes) : Main Bytes (Option Bytes) :=
  .call (lcsInitApp (dayKeys r) cfgFile) fun info =>
    let path := info.targetpath
    match lcsCommSubdirExt allMemory path true (site.readdir path) ⟨none, 0, 0⟩ with
    | none => .fault
    | some s =>
      if s.err ≠ 0 then .done
      else match sortedNames s with
        | none => .fault
        | some none => .done
        | some (some subs) => lcsHcollectAnaDay site r info path subs

end MemoryLeak.Cluster.Reports
