import MemoryLeak.KeyedText

/-!
# Configurations handed from program to program

The manager starts a program for each part of a day's work, the analysis starts the reports, a
report of a day those of its hours, and that of an hour those of its five minutes. Each writes the
configuration that the next one reads.
-/
namespace MemoryLeak.Cluster.Configs
open MemoryLeak.CBytes MemoryLeak.CText MemoryLeak.KeyedText

/-! ### The readers -/

/-- `gentemplate`. -/
def templateKeys : Table :=
  [(ascii "server:", .array 128), (ascii "user:", .array 64), (ascii "password:", .array 64),
    (ascii "db:", .array 64), (ascii "path:", .array 1024), (ascii "listtable:", .malloc 1),
    (ascii "pathtemplate:", .malloc 0)]

/-- `getagent`. -/
def agentKeys : Table :=
  [(ascii "server:", .array 128), (ascii "user:", .array 64), (ascii "password:", .array 64),
    (ascii "db:", .array 64), (ascii "pathtemplate_0001:", .array 1024),
    (ascii "pathagent_0002:", .array 1024), (ascii "listtable_0003:", .array 1024),
    (ascii "insertprocess_0004:", .array 1024)]

/-- `gethistory`. -/
def historyKeys : Table :=
  [(ascii "server:", .array 128), (ascii "user:", .array 64), (ascii "password:", .array 64),
    (ascii "db:", .array 64), (ascii "date_0001:", .array 32),
    (ascii "pathhistory_0002:", .array 1024), (ascii "listtable_0003:", .array 1024),
    (ascii "pathtemplate_0004:", .array 1024), (ascii "insertprocess_0005:", .array 1024)]

/-- `cluster`, which copies the date twice. -/
def mysqlKeys : Table :=
  [(ascii "server:", .array 128), (ascii "user:", .array 64), (ascii "password:", .array 64),
    (ascii "db:", .array 64), (ascii "path:", .array 128), (ascii "step:", .number),
    (ascii "insertprocess_0009:", .array 1024), (ascii "date_0011:", .array 64)]

/-- `insert_sqlite`. -/
def insertKeys : Table :=
  [(ascii "tables_0001:", .array 1024), (ascii "targetdir_0002:", .array 1024),
    (ascii "templatedir_0003:", .array 1024)]

/-- `shmcreate` and `shmcreate_audd`. -/
def shmKeys : Table :=
  [(ascii "dbpath_0001:", .array 1024), (ascii "prefixshmkey_0002:", .array 128)]

/-- The reports of calls. Each is three programs: of a day, of an hour and of five minutes. -/
inductive Report where
  | a000001 | a000002 | a000003 | a000004 | a000005 | a000006 | a000007 | a000008 | a000009
  deriving DecidableEq, Repr

def Report.name : Report → Bytes
  | a000001 => ascii "A_000001"
  | a000002 => ascii "A_000002"
  | a000003 => ascii "A_000003"
  | a000004 => ascii "A_000004"
  | a000005 => ascii "A_000005"
  | a000006 => ascii "A_000006"
  | a000007 => ascii "A_000007"
  | a000008 => ascii "A_000008"
  | a000009 => ascii "A_000009"

/-- The reports that read agents from shared memory. -/
def Report.shared : Report → Bool
  | a000007 | a000008 | a000009 => true
  | _ => false

/-- The first three fields of `LCS_TEMPLATE_INFO`. -/
def reportKeys : Table :=
  [(ascii "targetpath_0001:", .array 1024), (ascii "name_ana_0002:", .array 64),
    (ascii "subprocess_0003:", .array 1024)]

/-- The reports whose program of a day reads the prefix. -/
def Report.takesPrefix : Report → Bool
  | a000005 | a000007 | a000008 | a000009 => true
  | _ => false

/-- The program of a day. -/
def dayKeys (r : Report) : Table :=
  if r.takesPrefix then reportKeys ++ [(ascii "prefixshmkey_0004:", .array 512)] else reportKeys

/-- The program of an hour. -/
def hourKeys : Report → Table
  | .a000007 => reportKeys ++ [(ascii "prefixshmkey_0004:", .array 512)]
  | .a000008 | .a000009 => reportKeys ++ [(ascii "prefixshmkey_0004:", .array 1024)]
  | _ => reportKeys

/-- The program of five minutes. -/
def unitKeys (r : Report) : Table :=
  [(ascii "targetpath_0001:", .array 1024), (ascii "name_ana_0002:", .array 64)] ++
    if r.shared then [(ascii "prefixshmkey_0003:", .array 512)] else []

/-! ### The writers -/

/-- A string put into an array by `strcat` or `sprintf`; `none` where it leaves the array. -/
def intoArray (size : ℕ) (s : Bytes) : Option Bytes := if s.length < size then some s else none

/-- `fprintf(fp, "key:%s\n", value)`. -/
def fprintfLine (key value : Bytes) : Bytes := key ++ value ++ [10]

/-- `"%s/%s"`, and so on. -/
def joinPath (parts : List Bytes) : Bytes := [47].intercalate parts

/-- The dashes of a date become another byte. -/
def replaceDash (c : UInt8) (date : Bytes) : Bytes := date.map fun b => if b = 45 then c else b

/-- What the manager knows of a server, as far as it writes it. -/
structure LcsMysqlServerInfo where
  server : CStr 128
  user : CStr 64
  password : CStr 64
  db : CStr 64
  rootpath : CStr 512
  currentdate : CStr 32
  insertprocess : CStr 128
  listtable : CStr 2048
  listtableagent : CStr 2048

/-- The lines that four of the files start with. -/
def LcsMysqlServerInfo.access (p : LcsMysqlServerInfo) : Bytes :=
  fprintfLine (ascii "server:") p.server.bytes ++ fprintfLine (ascii "user:") p.user.bytes ++
    fprintfLine (ascii "password:") p.password.bytes ++ fprintfLine (ascii "db:") p.db.bytes

def lcsGenTemplateConfig (p : LcsMysqlServerInfo) : Bytes :=
  p.access ++
    fprintfLine (ascii "path:")
      (joinPath [p.rootpath.bytes, p.server.bytes, p.db.bytes, ascii "template"]) ++
    fprintfLine (ascii "pathtemplate:") (ascii "template.sql") ++
    (ascii "listtable:" ++ p.listtable.bytes)

def lcsGenAgentConfig (p : LcsMysqlServerInfo) : Bytes :=
  p.access ++
    fprintfLine (ascii "pathtemplate_0001:")
      (joinPath [p.rootpath.bytes, p.server.bytes, p.db.bytes, ascii "template"]) ++
    fprintfLine (ascii "pathagent_0002:")
      (joinPath [p.rootpath.bytes, p.server.bytes, p.db.bytes, ascii "agent"]) ++
    fprintfLine (ascii "listtable_0003:") p.listtableagent.bytes ++
    (ascii "insertprocess_0004:" ++ p.insertprocess.bytes)

/-- The tables of the history. -/
def historyTables : Bytes := ascii "DND_History,agent_history,auto_dial_detail"

/-- `tmp` is not cleared before `strcat`: the date goes behind what stands there. -/
def lcsGetHistoryCfg (tmp : Bytes) (p : LcsMysqlServerInfo) : Option Bytes := do
  let tmp ← intoArray 32 (text tmp ++ p.currentdate.bytes)
  some <| p.access ++ fprintfLine (ascii "date_0001:") p.currentdate.bytes ++
    fprintfLine (ascii "pathhistory_0002:")
      (joinPath [p.rootpath.bytes, p.server.bytes, p.db.bytes, replaceDash 47 tmp]) ++
    fprintfLine (ascii "listtable_0003:") historyTables ++
    fprintfLine (ascii "pathtemplate_0004:")
      (joinPath [p.rootpath.bytes, p.server.bytes, p.db.bytes, ascii "template"]) ++
    (ascii "insertprocess_0005:" ++ p.insertprocess.bytes)

def lcsGetFromMysqlCfg (p : LcsMysqlServerInfo) : Bytes :=
  p.access ++ fprintfLine (ascii "path:") p.rootpath.bytes ++
    fprintfLine (ascii "date_0011:") p.currentdate.bytes ++
    fprintfLine (ascii "step:") (ascii "60") ++ fprintfLine (ascii "max_duration:") (ascii "900") ++
    (ascii "insertprocess_0009:" ++ p.insertprocess.bytes)

/-- What a prefix of shared memory is made of: `"%s.%s.%s_%s"`. -/
def shmPrefix (user server db date : Bytes) : Bytes :=
  user ++ 46 :: (server ++ 46 :: (db ++ 95 :: replaceDash 95 date))

/-- The key that `lcs_manager_shm` makes for both. -/
def lcsManagerShm (user : Bytes) (p : LcsMysqlServerInfo) : Option Bytes := do
  let date ← intoArray 12 p.currentdate.bytes
  intoArray 1024 (shmPrefix user p.server.bytes p.db.bytes date)

def lcsManShmAuddCfg (p : LcsMysqlServerInfo) (key : Bytes) : Option Bytes := do
  let date ← intoArray 12 p.currentdate.bytes
  some <| fprintfLine (ascii "dbpath_0001:")
      (joinPath [p.rootpath.bytes, p.server.bytes, p.db.bytes, replaceDash 47 date]) ++
    (ascii "prefixshmkey_0002:" ++ key)

def lcsManShmAgentCfg (p : LcsMysqlServerInfo) (key : Bytes) : Bytes :=
  fprintfLine (ascii "dbpath_0001:")
      (joinPath [p.rootpath.bytes, p.server.bytes, p.db.bytes, ascii "agent"]) ++
    (ascii "prefixshmkey_0002:" ++ key)

/-- The file `insert.cfg`, and the command that starts the program with it. -/
def lcsCommMoving (tables targetdir templatedir insertprocess : Bytes) : Option Bytes := do
  let listtab ← intoArray 1024 (fprintfLine (ascii "tables_0001:") tables)
  let target ← intoArray 1024 (fprintfLine (ascii "targetdir_0002:") targetdir)
  let templ ← intoArray 1024 (fprintfLine (ascii "templatedir_0003:") templatedir)
  let pathcfg ← intoArray 1024 (targetdir ++ ascii "/insert.cfg")
  let _ ← intoArray 1024 (insertprocess ++ 32 :: pathcfg)
  some (listtab ++ target ++ templ)

/-- The analysis writes to the report of a day; `result` is the path of the program of an hour. -/
def lcsAnalysisDateConfig (user rootPath server dbname date ana result : Bytes) : Option Bytes := do
  let date ← intoArray 15 date
  some <| fprintfLine (ascii "targetpath_0001:")
      (joinPath [rootPath, server, dbname, replaceDash 47 date]) ++
    fprintfLine (ascii "name_ana_0002:") ana ++ fprintfLine (ascii "subprocess_0003:") result ++
    (ascii "prefixshmkey_0004:" ++ shmPrefix user server dbname date)

/-- The path of the program of five minutes, as the program of a day has it. -/
def Report.unitProcess (r : Report) : Bytes :=
  ascii "../" ++ r.name ++ ascii "_05m/lcs_" ++ r.name ++ ascii "_05m"

/-- `"%s/%s/%s.config.cfg"`. -/
def configPath (dir sub ana : Bytes) : Bytes := joinPath [dir, sub, ana ++ ascii ".config.cfg"]

/-- The report of a day writes to that of an hour; only three hand the prefix on. -/
def lcsDgenConfig (r : Report) (prefixshmkey day hour ana : Bytes) : Option Bytes := do
  let _ ← intoArray 1024 (configPath day hour ana)
  some <| fprintfLine (ascii "targetpath_0001:") (joinPath [day, hour]) ++
    fprintfLine (ascii "name_ana_0002:") ana ++
    if r.shared then fprintfLine (ascii "subprocess_0003:") r.unitProcess ++
      (ascii "prefixshmkey_0004:" ++ prefixshmkey)
    else ascii "subprocess_0003:" ++ r.unitProcess

/-- The report of an hour writes to that of five minutes. -/
def lcsUnitConfig (r : Report) (prefixshmkey dir sub ana : Bytes) : Option Bytes := do
  let _ ← intoArray 1024 (configPath dir sub ana)
  some <| fprintfLine (ascii "targetpath_0001:") (joinPath [dir, sub]) ++
    if r.shared then fprintfLine (ascii "name_ana_0002:") ana ++
      (ascii "prefixshmkey_0003:" ++ prefixshmkey)
    else ascii "name_ana_0002:" ++ ana

/-! ### What is handed on -/

/-- A configuration with the values that are written. `user` is what `getenv("USER")` gives, `tmp`
what stands in an array before it is filled. -/
inductive Handoff where
  | template (p : LcsMysqlServerInfo)
  | agent (p : LcsMysqlServerInfo)
  | history (tmp : Vector UInt8 32) (p : LcsMysqlServerInfo)
  | mysql (p : LcsMysqlServerInfo)
  | shmAudd (user : Bytes) (huser : (0 : UInt8) ∉ user) (p : LcsMysqlServerInfo)
  | shmAgent (user : Bytes) (huser : (0 : UInt8) ∉ user) (p : LcsMysqlServerInfo)
  | insert (tables targetdir templatedir insertprocess : CStr 1024)
  | day (r : Report) (user : Bytes) (huser : (0 : UInt8) ∉ user)
      (rootPath server dbname : CStr 1024) (date : CStr 12) (ana : CStr 9) (result : CStr 128)
  | hour (r : Report) (prefixshmkey : CStr 512) (dir : CStr 1024) (sub : CStr 6) (ana : CStr 64)
  | fiveMinutes (r : Report) (prefixshmkey dir : CStr 1024) (sub : CStr 256) (ana : CStr 64)

/-- The keys of the program that is started. -/
def Handoff.table : Handoff → Table
  | template _ => templateKeys
  | agent _ => agentKeys
  | history _ _ => historyKeys
  | mysql _ => mysqlKeys
  | shmAudd _ _ _ | shmAgent _ _ _ => shmKeys
  | insert _ _ _ _ => insertKeys
  | day r .. => dayKeys r
  | hour r .. => hourKeys r
  | fiveMinutes r .. => unitKeys r

/-- The file that is written; `none` where a string leaves an array of the writer. -/
def Handoff.file : Handoff → Option Bytes
  | template p => some (lcsGenTemplateConfig p)
  | agent p => some (lcsGenAgentConfig p)
  | history tmp p => lcsGetHistoryCfg tmp.toList p
  | mysql p => some (lcsGetFromMysqlCfg p)
  | shmAudd user _ p => (lcsManagerShm user p).bind (lcsManShmAuddCfg p)
  | shmAgent user _ p => (lcsManagerShm user p).map (lcsManShmAgentCfg p)
  | insert tables targetdir templatedir insertprocess =>
    lcsCommMoving tables.bytes targetdir.bytes templatedir.bytes insertprocess.bytes
  | day _ user _ rootPath server dbname date ana result =>
    lcsAnalysisDateConfig user rootPath.bytes server.bytes dbname.bytes date.bytes ana.bytes
      result.bytes
  | hour r prefixshmkey dir sub ana =>
    lcsDgenConfig r prefixshmkey.bytes dir.bytes sub.bytes ana.bytes
  | fiveMinutes r prefixshmkey dir sub ana =>
    lcsUnitConfig r prefixshmkey.bytes dir.bytes sub.bytes ana.bytes

/-- The strings that the writer makes have room in its arrays. -/
def Handoff.Room : Handoff → Prop
  | history tmp p => (text tmp.toList).length + p.currentdate.bytes.length < 32
  | shmAudd user _ p | shmAgent user _ p =>
    p.currentdate.bytes.length < 12 ∧ user.length + p.server.bytes.length + p.db.bytes.length +
      p.currentdate.bytes.length + 3 < 1024
  | insert tables targetdir templatedir insertprocess =>
    tables.bytes.length + 13 < 1024 ∧ targetdir.bytes.length + 16 < 1024 ∧
      templatedir.bytes.length + 18 < 1024 ∧
      insertprocess.bytes.length + targetdir.bytes.length + 12 < 1024
  | hour _ _ dir sub ana | fiveMinutes _ _ dir sub ana =>
    dir.bytes.length + sub.bytes.length + ana.bytes.length + 13 < 1024
  | _ => True

def LcsMysqlServerInfo.accessLines (p : LcsMysqlServerInfo) : List (Bytes × Bytes) :=
  [(ascii "server:", p.server.bytes), (ascii "user:", p.user.bytes),
    (ascii "password:", p.password.bytes), (ascii "db:", p.db.bytes)]

/-- The keys with the values that are meant for them. -/
def Handoff.lines : Handoff → List (Bytes × Bytes)
  | template p => p.accessLines ++
    [(ascii "path:", joinPath [p.rootpath.bytes, p.server.bytes, p.db.bytes, ascii "template"]),
      (ascii "pathtemplate:", ascii "template.sql"), (ascii "listtable:", p.listtable.bytes)]
  | agent p => p.accessLines ++
    [(ascii "pathtemplate_0001:",
        joinPath [p.rootpath.bytes, p.server.bytes, p.db.bytes, ascii "template"]),
      (ascii "pathagent_0002:",
        joinPath [p.rootpath.bytes, p.server.bytes, p.db.bytes, ascii "agent"]),
      (ascii "listtable_0003:", p.listtableagent.bytes),
      (ascii "insertprocess_0004:", p.insertprocess.bytes)]
  | history tmp p => p.accessLines ++
    [(ascii "date_0001:", p.currentdate.bytes),
      (ascii "pathhistory_0002:", joinPath [p.rootpath.bytes, p.server.bytes, p.db.bytes,
        replaceDash 47 (text tmp.toList ++ p.currentdate.bytes)]),
      (ascii "listtable_0003:", historyTables),
      (ascii "pathtemplate_0004:",
        joinPath [p.rootpath.bytes, p.server.bytes, p.db.bytes, ascii "template"]),
      (ascii "insertprocess_0005:", p.insertprocess.bytes)]
  | mysql p => p.accessLines ++
    [(ascii "path:", p.rootpath.bytes), (ascii "date_0011:", p.currentdate.bytes),
      (ascii "step:", ascii "60"), (ascii "max_duration:", ascii "900"),
      (ascii "insertprocess_0009:", p.insertprocess.bytes)]
  | shmAudd user _ p =>
    [(ascii "dbpath_0001:", joinPath [p.rootpath.bytes, p.server.bytes, p.db.bytes,
        replaceDash 47 p.currentdate.bytes]),
      (ascii "prefixshmkey_0002:",
        shmPrefix user p.server.bytes p.db.bytes p.currentdate.bytes)]
  | shmAgent user _ p =>
    [(ascii "dbpath_0001:", joinPath [p.rootpath.bytes, p.server.bytes, p.db.bytes, ascii "agent"]),
      (ascii "prefixshmkey_0002:",
        shmPrefix user p.server.bytes p.db.bytes p.currentdate.bytes)]
  | insert tables targetdir templatedir _ =>
    [(ascii "tables_0001:", tables.bytes), (ascii "targetdir_0002:", targetdir.bytes),
      (ascii "templatedir_0003:", templatedir.bytes)]
  | day _ user _ rootPath server dbname date ana result =>
    [(ascii "targetpath_0001:",
        joinPath [rootPath.bytes, server.bytes, dbname.bytes, replaceDash 47 date.bytes]),
      (ascii "name_ana_0002:", ana.bytes), (ascii "subprocess_0003:", result.bytes),
      (ascii "prefixshmkey_0004:", shmPrefix user server.bytes dbname.bytes date.bytes)]
  | hour r prefixshmkey dir sub ana =>
    [(ascii "targetpath_0001:", joinPath [dir.bytes, sub.bytes]),
      (ascii "name_ana_0002:", ana.bytes), (ascii "subprocess_0003:", r.unitProcess)] ++
      if r.shared then [(ascii "prefixshmkey_0004:", prefixshmkey.bytes)] else []
  | fiveMinutes r prefixshmkey dir sub ana =>
    [(ascii "targetpath_0001:", joinPath [dir.bytes, sub.bytes]),
      (ascii "name_ana_0002:", ana.bytes)] ++
      if r.shared then [(ascii "prefixshmkey_0003:", prefixshmkey.bytes)] else []

/-- The four keys of a report. -/
def prefixKeys : Table := reportKeys ++ [(ascii "prefixshmkey_0004:", .array 512)]

/-- The three keys of a report of five minutes. -/
def unitPrefixKeys : Table :=
  [(ascii "targetpath_0001:", .array 1024), (ascii "name_ana_0002:", .array 64)] ++
    [(ascii "prefixshmkey_0003:", .array 512)]

theorem keys_wellFormed : ∀ T ∈ [templateKeys, agentKeys, historyKeys, mysqlKeys, insertKeys,
    shmKeys, prefixKeys, unitPrefixKeys], T.WellFormed := fun T hT =>
  Table.wellFormed_of_check (List.all_eq_true.mp (by decide +kernel) T hT)

theorem prefixKeys_wellFormed : prefixKeys.WellFormed :=
  keys_wellFormed _ (by simp only [List.mem_cons, true_or, or_true])

theorem unitPrefixKeys_wellFormed : unitPrefixKeys.WellFormed :=
  keys_wellFormed _ (by simp only [List.mem_cons, true_or, or_true])

theorem dayKeys_wellFormed (r : Report) : (dayKeys r).WellFormed := by
  rw [dayKeys]
  split_ifs
  · exact prefixKeys_wellFormed
  · exact prefixKeys_wellFormed.of_sublist ((List.sublist_append_left _ _).map _)

theorem hourKeys_wellFormed (r : Report) : (hourKeys r).WellFormed := by
  unfold hourKeys
  split
  · exact prefixKeys_wellFormed
  · refine prefixKeys_wellFormed.of_sublist ?_
    rw [prefixKeys, List.map_append, List.map_append, List.map_singleton, List.map_singleton]
  · refine prefixKeys_wellFormed.of_sublist ?_
    rw [prefixKeys, List.map_append, List.map_append, List.map_singleton, List.map_singleton]
  · exact prefixKeys_wellFormed.of_sublist ((List.sublist_append_left _ _).map _)

theorem unitKeys_wellFormed (r : Report) : (unitKeys r).WellFormed := by
  rw [unitKeys]
  split_ifs
  · exact unitPrefixKeys_wellFormed
  · rw [List.append_nil]
    exact unitPrefixKeys_wellFormed.of_sublist ((List.sublist_append_left _ _).map _)

theorem Handoff.table_wellFormed (h : Handoff) : h.table.WellFormed := by
  cases h with
  | day r => exact dayKeys_wellFormed r
  | hour r => exact hourKeys_wellFormed r
  | fiveMinutes r => exact unitKeys_wellFormed r
  | _ =>
    rw [Handoff.table]
    exact keys_wellFormed _ (by simp only [List.mem_cons, true_or, or_true])

/-! ### What is written -/

theorem intoArray_eq_some {size : ℕ} {s t : Bytes} :
    intoArray size s = some t ↔ s.length < size ∧ s = t := by
  unfold intoArray
  split_ifs with h
  · simp [h]
  · simp [h]

@[simp] theorem replaceDash_length (c : UInt8) (date : Bytes) :
    (replaceDash c date).length = date.length := List.length_map _

theorem configPath_length (dir sub ana : Bytes) :
    (configPath dir sub ana).length = dir.length + sub.length + ana.length + 13 := by
  have hcfg : (ascii ".config.cfg").length = 11 := rfl
  simp only [configPath, joinPath, List.intercalate_cons_cons, List.intercalate_singleton,
    List.length_append, List.length_singleton, hcfg]
  omega

theorem shmPrefix_length (user server db date : Bytes) :
    (shmPrefix user server db date).length =
      user.length + server.length + db.length + date.length + 3 := by
  simp only [shmPrefix, List.length_append, List.length_cons, replaceDash_length]
  omega

theorem lcsManagerShm_eq_some {user key : Bytes} {p : LcsMysqlServerInfo} :
    lcsManagerShm user p = some key ↔ p.currentdate.bytes.length < 12 ∧
      user.length + p.server.bytes.length + p.db.bytes.length + p.currentdate.bytes.length + 3 <
        1024 ∧ shmPrefix user p.server.bytes p.db.bytes p.currentdate.bytes = key := by
  simp only [lcsManagerShm, bind, Option.bind_eq_some_iff, intoArray_eq_some, and_assoc,
    exists_and_left, exists_eq_left', shmPrefix_length]

theorem lcsCommMoving_eq_some {tables targetdir templatedir insertprocess file : Bytes} :
    lcsCommMoving tables targetdir templatedir insertprocess = some file ↔
      (tables.length + 13 < 1024 ∧ targetdir.length + 16 < 1024 ∧
        templatedir.length + 18 < 1024 ∧ insertprocess.length + targetdir.length + 12 < 1024) ∧
      fprintfLine (ascii "tables_0001:") tables ++
        fprintfLine (ascii "targetdir_0002:") targetdir ++
        fprintfLine (ascii "templatedir_0003:") templatedir = file := by
  have h1 : (ascii "tables_0001:").length = 12 := rfl
  have h2 : (ascii "targetdir_0002:").length = 15 := rfl
  have h3 : (ascii "templatedir_0003:").length = 17 := rfl
  have h4 : (ascii "/insert.cfg").length = 11 := rfl
  simp only [lcsCommMoving, bind, Option.bind_eq_some_iff, intoArray_eq_some, and_assoc,
    exists_and_left, exists_eq_left', fprintfLine, List.length_append, List.length_cons,
    List.length_nil, h1, h2, h3, h4, Option.some.injEq]
  constructor
  · rintro ⟨ht, hd, hs, -, hcmd, hfile⟩
    exact ⟨by omega, by omega, by omega, by omega, hfile⟩
  · rintro ⟨ht, hd, hs, hcmd, hfile⟩
    exact ⟨by omega, by omega, by omega, by omega, by omega, hfile⟩

/-- Only one of the files ends with a newline. -/
def Handoff.newline : Handoff → Bytes
  | insert .. => [10]
  | _ => []

/-- The file is its lines, and is written if what the writer makes has room. -/
theorem Handoff.file_eq_some {h : Handoff} {f : Bytes} :
    h.file = some f ↔ h.Room ∧ joined h.lines ++ h.newline = f := by
  cases h with
  | history tmp p =>
    simp [Handoff.file, Handoff.Room, Handoff.lines, Handoff.newline, lcsGetHistoryCfg, bind,
      Option.bind_eq_some_iff, intoArray_eq_some, LcsMysqlServerInfo.access,
      LcsMysqlServerInfo.accessLines, fprintfLine, joined, List.intercalate_cons_cons]
  | shmAudd user huser p =>
    simp only [Handoff.file, Handoff.Room, Option.bind_eq_some_iff, lcsManagerShm_eq_some]
    simp [Handoff.lines, Handoff.newline, lcsManShmAuddCfg, bind, Option.bind_eq_some_iff,
      intoArray_eq_some, fprintfLine, joined, List.intercalate_cons_cons, and_assoc]
    exact fun hdate _ _ => hdate
  | shmAgent user huser p =>
    simp only [Handoff.file, Handoff.Room, Option.map_eq_some_iff, lcsManagerShm_eq_some]
    simp [Handoff.lines, Handoff.newline, lcsManShmAgentCfg, fprintfLine, joined,
      List.intercalate_cons_cons, and_assoc]
  | insert tables targetdir templatedir insertprocess =>
    simp only [Handoff.file, Handoff.Room, lcsCommMoving_eq_some]
    simp [Handoff.lines, Handoff.newline, fprintfLine, joined, List.intercalate_cons_cons]
  | day r user huser rootPath server dbname date ana result =>
    have hdate : date.bytes.length < 15 := date.lt.trans (by decide)
    simp [Handoff.file, Handoff.Room, Handoff.lines, Handoff.newline, lcsAnalysisDateConfig, bind,
      Option.bind_eq_some_iff, intoArray_eq_some, fprintfLine, joined,
      List.intercalate_cons_cons, hdate]
  | hour r prefixshmkey dir sub ana =>
    cases hr : r.shared <;>
      simp [Handoff.file, Handoff.Room, Handoff.lines, Handoff.newline, lcsDgenConfig, bind,
        Option.bind_eq_some_iff, intoArray_eq_some, configPath_length, fprintfLine, joined, hr,
        List.intercalate_cons_cons]
  | fiveMinutes r prefixshmkey dir sub ana =>
    cases hr : r.shared <;>
      simp [Handoff.file, Handoff.Room, Handoff.lines, Handoff.newline, lcsUnitConfig, bind,
        Option.bind_eq_some_iff, intoArray_eq_some, configPath_length, fprintfLine, joined, hr,
        List.intercalate_cons_cons]
  | _ =>
    simp [Handoff.file, Handoff.Room, Handoff.lines, Handoff.newline, lcsGenTemplateConfig,
      lcsGenAgentConfig, lcsGetFromMysqlCfg, LcsMysqlServerInfo.access,
      LcsMysqlServerInfo.accessLines, fprintfLine, joined, List.intercalate_cons_cons]

theorem noNul_joinPath {parts : List Bytes} (h : ∀ s ∈ parts, (0 : UInt8) ∉ s) :
    (0 : UInt8) ∉ joinPath parts := notMem_intercalate (by decide) h

theorem noNul_replaceDash {c : UInt8} (hc : c ≠ 0) {s : Bytes} (h : (0 : UInt8) ∉ s) :
    (0 : UInt8) ∉ replaceDash c s := by
  intro hmem
  obtain ⟨b, hb, hzero⟩ := List.mem_map.mp hmem
  split_ifs at hzero
  · exact hc hzero
  · exact h (hzero ▸ hb)

theorem noNul_shmPrefix {user server db date : Bytes} (huser : (0 : UInt8) ∉ user)
    (hserver : (0 : UInt8) ∉ server) (hdb : (0 : UInt8) ∉ db) (hdate : (0 : UInt8) ∉ date) :
    (0 : UInt8) ∉ shmPrefix user server db date := by
  have h := noNul_replaceDash (c := 95) (by decide) hdate
  simp [shmPrefix, huser, hserver, hdb, h]

theorem noNul_name (r : Report) : (0 : UInt8) ∉ r.name := by
  cases r <;> decide

theorem noNul_unitProcess (r : Report) : (0 : UInt8) ∉ r.unitProcess := by
  have hup : (0 : UInt8) ∉ ascii "../" := by decide
  have hlcs : (0 : UInt8) ∉ ascii "_05m/lcs_" := by decide
  have hminutes : (0 : UInt8) ∉ ascii "_05m" := by decide
  simp only [Report.unitProcess, List.mem_append, hup, hlcs, hminutes, noNul_name, or_self,
    not_false_eq_true]

theorem Handoff.lines_noNul (h : Handoff) : ∀ e ∈ h.lines, (0 : UInt8) ∉ e.2 := by
  have htemplate : (0 : UInt8) ∉ ascii "template" := by decide
  have hagent : (0 : UInt8) ∉ ascii "agent" := by decide
  have hsql : (0 : UInt8) ∉ ascii "template.sql" := by decide
  have hhistory : (0 : UInt8) ∉ historyTables := by decide
  have hstep : (0 : UInt8) ∉ ascii "60" := by decide
  have hduration : (0 : UInt8) ∉ ascii "900" := by decide
  have hslash : ∀ {n : ℕ} (s : CStr n), (0 : UInt8) ∉ replaceDash 47 s.bytes := fun s =>
    noNul_replaceDash (by decide) s.noNul
  cases h with
  | history tmp p =>
    have htmp : (0 : UInt8) ∉ text tmp.toList := fun hmem => by
      simpa using List.mem_takeWhile_imp hmem
    have hdate : (0 : UInt8) ∉ replaceDash 47 (text tmp.toList ++ p.currentdate.bytes) :=
      noNul_replaceDash (by decide) (by simp [htmp, p.currentdate.noNul])
    simp [Handoff.lines, LcsMysqlServerInfo.accessLines, CStr.noNul, noNul_joinPath, *]
  | shmAudd user huser p =>
    have hkey := noNul_shmPrefix huser p.server.noNul p.db.noNul p.currentdate.noNul
    simp [Handoff.lines, CStr.noNul, noNul_joinPath, *]
  | shmAgent user huser p =>
    have hkey := noNul_shmPrefix huser p.server.noNul p.db.noNul p.currentdate.noNul
    simp [Handoff.lines, CStr.noNul, noNul_joinPath, *]
  | day r user huser rootPath server dbname date =>
    have hkey := noNul_shmPrefix huser server.noNul dbname.noNul date.noNul
    simp [Handoff.lines, CStr.noNul, noNul_joinPath, *]
  | hour r =>
    cases hr : r.shared <;>
      simp [Handoff.lines, CStr.noNul, noNul_joinPath, noNul_unitProcess, hr]
  | fiveMinutes r =>
    cases hr : r.shared <;> simp [Handoff.lines, CStr.noNul, noNul_joinPath, hr]
  | _ => simp [Handoff.lines, LcsMysqlServerInfo.accessLines, CStr.noNul, noNul_joinPath, *]

/-- The keys that are written and not looked for. -/
def Handoff.unread : Handoff → List Bytes
  | mysql _ => [ascii "max_duration:"]
  | day r .. => if r.takesPrefix then [] else [ascii "prefixshmkey_0004:"]
  | _ => []

theorem perm_swap_last {α : Type*} (l : List α) (a b : α) : (l ++ [a, b]).Perm (l ++ [b, a]) :=
  (List.Perm.swap b a []).append_left l

theorem Handoff.lines_keys (h : Handoff) :
    (h.lines.map Prod.fst).Perm (h.table.map Prod.fst ++ h.unread) := by
  cases h with
  | template p =>
    exact perm_swap_last [ascii "server:", ascii "user:", ascii "password:", ascii "db:",
      ascii "path:"] (ascii "pathtemplate:") (ascii "listtable:")
  | mysql p =>
    refine List.Perm.append_left [ascii "server:", ascii "user:", ascii "password:", ascii "db:",
      ascii "path:"] ?_
    -- the date comes last in the table, and the duration is not in it
    exact (List.Perm.swap _ _ _).trans (.cons _ (.trans (perm_swap_last [ascii "date_0011:"] _ _)
      (.swap _ _ _)))
  | day r => cases r <;> exact List.Perm.refl _
  | hour r => cases r <;> exact List.Perm.refl _
  | fiveMinutes r => cases r <;> exact List.Perm.refl _
  | _ => exact List.Perm.refl _

theorem Handoff.unread_spec (h : Handoff) : h.unread.Nodup ∧
    ∀ key ∈ h.unread, key ∉ h.table.map Prod.fst ∧ (0 : UInt8) ∉ key := by
  cases h with
  | mysql =>
    simp only [Handoff.unread, Handoff.table]
    decide +kernel
  | day r =>
    simp only [Handoff.unread, Handoff.table]
    cases r <;> decide +kernel
  | _ => exact ⟨List.nodup_nil, by simp [Handoff.unread]⟩

theorem Handoff.lines_nodup (h : Handoff) : (h.lines.map Prod.fst).Nodup := by
  rw [h.lines_keys.nodup_iff, List.nodup_append]
  refine ⟨h.table_wellFormed.nodup, h.unread_spec.1, ?_⟩
  rintro a ha b hb rfl
  exact (h.unread_spec.2 a hb).1 ha

/-- The line that a report does not look for is one word, and holds none of its keys. -/
def Handoff.Quiet : Handoff → Prop
  | day r user _ _ server dbname date _ _ => r.takesPrefix = false → Skipped (dayKeys r)
    (ascii "prefixshmkey_0004:", shmPrefix user server.bytes dbname.bytes date.bytes)
  | _ => True

/-- Only the step of `cluster` is a number. -/
theorem Handoff.mysql_or_kept (h : Handoff) :
    (∃ p, h = mysql p) ∨ ∀ k ∈ h.table, k.2 ≠ .number := by
  cases h with
  | mysql p => exact Or.inl ⟨p, rfl⟩
  | day r => cases r <;> exact Or.inr (by
    simp [Handoff.table, dayKeys, reportKeys, Report.takesPrefix])
  | hour r => cases r <;> exact Or.inr (by simp [Handoff.table, hourKeys, reportKeys])
  | fiveMinutes r => cases r <;> exact Or.inr (by simp [Handoff.table, unitKeys, Report.shared])
  | _ =>
    exact Or.inr (by
      simp [Handoff.table, templateKeys, agentKeys, historyKeys, shmKeys, insertKeys])

theorem skipped_step : Skipped mysqlKeys (ascii "step:", ascii "60") := by
  have hfind : findKey mysqlKeys (ascii "step:" ++ ascii "60") = some (ascii "step:", .number) := by
    decide +kernel
  refine ⟨isToken_of_isWord (by decide +kernel), fun k hk => ?_⟩
  rw [← Option.some.inj (hfind.symm.trans hk)]

theorem skipped_max_duration : Skipped mysqlKeys (ascii "max_duration:", ascii "900") := by
  have hfind : findKey mysqlKeys (ascii "max_duration:" ++ ascii "900") = none := by
    decide +kernel
  refine ⟨isToken_of_isWord (by decide +kernel), fun k hk => ?_⟩
  cases hfind.symm.trans hk

theorem Handoff.unread_skipped {h : Handoff} (hq : h.Quiet) {e : Bytes × Bytes} (he : e ∈ h.lines)
    (hkey : e.1 ∈ h.unread) : Skipped h.table e := by
  have hline : ∀ x ∈ h.lines, e.1 = x.1 → e = x := fun x hx heq =>
    List.inj_on_of_nodup_map h.lines_nodup he hx heq
  cases h with
  | mysql p =>
    rw [hline (ascii "max_duration:", ascii "900") (by simp [Handoff.lines])
      (List.mem_singleton.mp hkey)]
    exact skipped_max_duration
  | day r user huser rootPath server dbname date ana result =>
    simp only [Handoff.unread] at hkey
    split_ifs at hkey with htakes
    · exact absurd hkey List.not_mem_nil
    · rw [hline (ascii "prefixshmkey_0004:", shmPrefix user server.bytes dbname.bytes date.bytes)
        (by simp [Handoff.lines]) (List.mem_singleton.mp hkey)]
      exact hq (Bool.not_eq_true _ ▸ htakes)
  | _ => exact absurd hkey List.not_mem_nil

/-- The one number is skipped. -/
theorem mysql_number {p : LcsMysqlServerInfo} {e : Bytes × Bytes} (he : e ∈ (Handoff.mysql p).lines)
    {k : Bytes × Dest} (hk : k ∈ mysqlKeys) (hke : k.1 = e.1) (hnumber : k.2 = .number) :
    Skipped mysqlKeys e := by
  have hstep : (ascii "step:", ascii "60") ∈ (Handoff.mysql p).lines := by simp [Handoff.lines]
  have hall : mysqlKeys.all fun k => k.2 != .number || k.1 == ascii "step:" := by
    decide +kernel
  have hone := List.all_eq_true.mp hall k hk
  rw [hnumber] at hone
  have hkey : e.1 = ascii "step:" := by simpa [← hke] using hone
  rw [List.inj_on_of_nodup_map (Handoff.mysql p).lines_nodup he hstep hkey]
  exact skipped_step

theorem Handoff.lines_known {h : Handoff} (hq : h.Quiet) :
    ∀ e ∈ h.lines, Takes h.table e.1 ∨ Skipped h.table e := by
  intro e he
  have hmem : e.1 ∈ h.table.map Prod.fst ++ h.unread :=
    h.lines_keys.mem_iff.mp (List.mem_map_of_mem he)
  rcases List.mem_append.mp hmem with hmem | hmem
  · obtain ⟨k, hk, hke⟩ := List.mem_map.mp hmem
    by_cases hnumber : k.2 = .number
    · right
      rcases h.mysql_or_kept with ⟨p, rfl⟩ | hkept
      · exact mysql_number he hk hke hnumber
      · exact absurd hnumber (hkept k hk)
    · exact Or.inl ⟨k.2, hke ▸ hk, hnumber⟩
  · exact Or.inr (unread_skipped hq he hmem)

theorem Handoff.joined_noNul (h : Handoff) : (0 : UInt8) ∉ joined h.lines := by
  refine notMem_intercalate (by decide) fun t ht => ?_
  obtain ⟨e, he, rfl⟩ := List.mem_map.mp ht
  intro hmem
  rcases List.mem_append.mp hmem with hmem | hmem
  · rcases List.mem_append.mp (h.lines_keys.mem_iff.mp (List.mem_map_of_mem he)) with hkey | hkey
    · obtain ⟨k, hk, hke⟩ := List.mem_map.mp hkey
      exact ((h.table_wellFormed.word k hk).2 0 (hke ▸ hmem)).2 rfl
    · exact (h.unread_spec.2 e.1 hkey).2 hmem
  · exact h.lines_noNul e he hmem

theorem Handoff.load_newline (h : Handoff) :
    load h.table (joined h.lines ++ h.newline) = load h.table (joined h.lines) := by
  cases h with
  | insert => exact KeyedText.load_newline (Handoff.joined_noNul _)
  | _ => simp only [Handoff.newline, List.append_nil]

/-- A text without NULs. -/
def cstr (n : ℕ) (s : String) (h : (ascii s).length < n ∧ (0 : UInt8) ∉ ascii s) : CStr n :=
  ⟨ascii s, h.1, h.2⟩

/-- A report that does not read the prefix gets its three values. -/
def sampleHandoff : Handoff :=
  .day .a000001 (ascii "lcs") (by decide) (cstr 1024 "/var/lcs" (by decide +kernel))
    (cstr 1024 "10.0.0.1" (by decide +kernel)) (cstr 1024 "cdr" (by decide +kernel))
    (cstr 12 "2017-10-30" (by decide +kernel)) (cstr 9 "A_000001" (by decide +kernel))
    (cstr 128 "./lcs_A_000001_hour" (by decide +kernel))

end MemoryLeak.Cluster.Configs
