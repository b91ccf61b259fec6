import MemoryLeak.TextFile
import Mathlib.Data.List.GetD

/-!
# The configuration of an analysis

The manager writes eight keyed lines, the analysis program reads them into the arrays of
`LCS_ANALYSIS_INFO`. A key is looked for anywhere in a line, in a fixed order, and all names
of a list are copied with the length of the first.
-/
namespace MemoryLeak.Cluster
open MemoryLeak.CBytes MemoryLeak.CText MemoryLeak.TextFile

/-- The keys, in the order in which `lcs_cfg_item` looks for them. -/
inductive CfgKey where
  | rootPath | server | dbname | listAna | date | week | month | year
  deriving DecidableEq, Repr

/-- The text of a key, the same in both programs. -/
def CfgKey.base : CfgKey → Bytes
  | rootPath => [114, 111, 111, 116, 95, 112, 97, 116, 104, 95, 48, 48, 48, 49, 58]
  | server => [115, 101, 114, 118, 101, 114, 95, 48, 48, 48, 50, 58]
  | dbname => [100, 98, 110, 97, 109, 101, 95, 48, 48, 48, 51, 58]
  | listAna => [108, 105, 115, 116, 95, 97, 110, 97, 95, 48, 48, 48, 52, 58]
  | date => [100, 97, 116, 101, 95, 48, 48, 48, 53, 58]
  | week => [119, 101, 101, 107, 95, 48, 48, 48, 54, 58]
  | month => [109, 111, 110, 116, 104, 95, 48, 48, 48, 55, 58]
  | year => [121, 101, 97, 114, 95, 48, 48, 48, 56, 58]

/-- The size of the array that a key fills; `list_ana` is a `char[250][9]`. -/
def CfgKey.size : CfgKey → ℕ
  | rootPath | server | dbname => 1024
  | listAna => 2250
  | date | week | month | year => 12

/-! ### The writer -/

/-- What the manager writes: values of one line that fit the arrays they are read into, and
up to 250 names without commas. -/
structure AnalysisJob where
  rootpath : CStr 1024
  server : CStr 1024
  db : CStr 1024
  currentdate : CStr 12
  names : List (CStr 9)
  names_ne : names ≠ []
  count : names.length ≤ 250
  oneLine : ∀ s ∈ [rootpath.bytes, server.bytes, db.bytes, currentdate.bytes], (10 : UInt8) ∉ s
  plainNames : ∀ t ∈ names, (10 : UInt8) ∉ t.bytes ∧ (44 : UInt8) ∉ t.bytes

/-- `listanalysis`: the names with commas between them. -/
def AnalysisJob.listanalysis (job : AnalysisJob) : Bytes :=
  [44].intercalate (job.names.map CStr.bytes)

/-- The lines that end with a newline. -/
def AnalysisJob.cfgLines (job : AnalysisJob) : List Bytes :=
  [CfgKey.rootPath.base ++ job.rootpath.bytes, CfgKey.server.base ++ job.server.bytes,
    CfgKey.dbname.base ++ job.db.bytes, CfgKey.listAna.base ++ job.listanalysis,
    CfgKey.date.base ++ job.currentdate.bytes, CfgKey.week.base ++ job.currentdate.bytes,
    CfgKey.month.base]

/-- The file of `lcs_gen_analysis_cfg`. -/
def lcsGenAnalysisCfg (job : AnalysisJob) : Bytes :=
  job.cfgLines.flatMap (· ++ [10]) ++ CfgKey.year.base

/-! ### The reader -/

/-- The arrays of `LCS_ANALYSIS_INFO`, each under the key that fills it. -/
abbrev AnalysisInfo := CfgKey → Bytes

/-- The structure after `memset`. -/
def zeroInfo : AnalysisInfo := fun k => zeros k.size

/-- `memcpy` into an array; `none` where it would leave the array. -/
def copyField (dst : Bytes) (off : ℕ) (src : Bytes) : Option Bytes :=
  if off + src.length ≤ dst.length then some (memcpy dst off src) else none

/-- One of `",\t\n"`. -/
def isListEnd (c : UInt8) : Bool := c = 44 || c = 9 || c = 10

/-- `n` bytes at each string that `strtok` finds go to the next nine bytes of `list_ana`;
`none` where the copy would leave the line's buffer or the array. -/
def copyNames (n : ℕ) : ℕ → Bytes → List (Bytes × Bytes) → Option Bytes
  | _, list, [] => some list
  | i, list, (p, behind) :: rest =>
    if n ≤ (p ++ 0 :: behind).length then do
      let list ← copyField list (9 * i) ((p ++ 0 :: behind).take n)
      copyNames n (i + 1) list rest
    else none

/-- The list in a line: the length of every copy is `strlen(item) - sz`, which the NUL of the
first `strtok` has made the end of the first name. -/
def lcsCfgList (list item : Bytes) : Option Bytes :=
  let t := item.drop CfgKey.listAna.base.length ++ zeros (4096 - item.length)
  match stringsFrom isListEnd [] t with
  | [] => some list
  | p :: ps => copyNames ((t.takeWhile isListEnd).length + p.1.length) 0 list (p :: ps)

def cfgKeys : List CfgKey :=
  [.rootPath, .server, .dbname, .listAna, .date, .week, .month, .year]

/-- The first key that `strstr` finds in a line. -/
def lcsCfgKey (item : Bytes) : Option CfgKey := cfgKeys.find? fun k => strstr item k.base

/-- The array of a key after a line with that key. -/
def cfgWrite (k : CfgKey) (dst item : Bytes) : Option Bytes :=
  if k = .listAna then lcsCfgList dst item else copyField dst 0 (item.drop k.base.length)

/-- What `lcs_cfg_item` does with the line it has cut. -/
def cfgStore (info : AnalysisInfo) (item : Bytes) : Option AnalysisInfo :=
  match lcsCfgKey item with
  | none => some info
  | some k => (cfgWrite k (info k) item).map fun a => Function.update info k a

/-- `item[sz - 1] = 0` cuts the last byte of the line. -/
def lcsCfgItem (info : AnalysisInfo) (item : Bytes) : Option AnalysisInfo :=
  cfgStore info item.dropLast

def lcsCfgLoad (info : AnalysisInfo) (file : Bytes) : Option AnalysisInfo :=
  (fgetsAll 4095 file).foldlM lcsCfgItem info

/-! ### The round trip -/

/-- Every value is read as it was written. -/
structure Restored (job : AnalysisJob) (info : AnalysisInfo) : Prop where
  rootPath : text (info .rootPath) = job.rootpath.bytes
  server : text (info .server) = job.server.bytes
  dbname : text (info .dbname) = job.db.bytes
  date : text (info .date) = job.currentdate.bytes
  week : text (info .week) = job.currentdate.bytes
  listAna : ∀ i name, job.names[i]? = some name →
    text ((info .listAna).drop (9 * i)) = name.bytes

def ConfigRoundTrip (job : AnalysisJob) : Prop :=
  ∃ info, lcsCfgLoad zeroInfo (lcsGenAnalysisCfg job) = some info ∧ Restored job info

/-- Names without tabs, the empty ones last and the first as long as any. -/
structure NamesFit (names : List (CStr 9)) : Prop where
  noTab : ∀ t ∈ names, (9 : UInt8) ∉ t.bytes
  emptyLast : names.Pairwise fun a b => a.bytes = [] → b.bytes = []
  firstLongest : ∀ a ∈ names.head?, ∀ b ∈ names, b.bytes.length ≤ a.bytes.length

/-- No value holds a key that is looked for before its own. -/
structure KeysFit (job : AnalysisJob) : Prop where
  server : ¬ CfgKey.rootPath.base <:+: job.server.bytes
  dbRoot : ¬ CfgKey.rootPath.base <:+: job.db.bytes
  dbServer : ¬ CfgKey.server.base <:+: job.db.bytes
  date : ¬ CfgKey.date.base <:+: job.currentdate.bytes

/-! ### Which array a line goes to -/

theorem base_apart {j k : CfgKey} (h : j ≠ k) : Apart j.base k.base := by
  cases j <;> cases k <;> first | exact absurd rfl h | decide

/-- A key is found in a line behind its own key or as it. -/
theorem strstr_line (k j : CfgKey) (v : Bytes) :
    strstr (k.base ++ v) j.base = (decide (j = k) || strstr v j.base) := by
  by_cases h : j = k
  · rw [h, decide_eq_true rfl, Bool.true_or]
    exact decide_eq_true (List.prefix_append _ v).isInfix
  · rw [decide_eq_false h, Bool.false_or]
    exact decide_eq_decide.mpr (infix_append_iff (base_apart h) v)

theorem strstr_short {v base : Bytes} (h : v.length < base.length) : strstr v base = false :=
  decide_eq_false fun hin => absurd hin.length_le (by omega)

theorem key_rootPath (v : Bytes) : lcsCfgKey (CfgKey.rootPath.base ++ v) = some .rootPath := by
  simp [lcsCfgKey, cfgKeys, strstr_line]

theorem key_server (v : Bytes) :
    lcsCfgKey (CfgKey.server.base ++ v) =
      if strstr v CfgKey.rootPath.base then some .rootPath else some .server := by
  simp only [lcsCfgKey, cfgKeys, List.find?_cons, strstr_line]
  cases strstr v CfgKey.rootPath.base <;> rfl

theorem key_dbname (v : Bytes) :
    lcsCfgKey (CfgKey.dbname.base ++ v) =
      if strstr v CfgKey.rootPath.base then some .rootPath
      else if strstr v CfgKey.server.base then some .server else some .dbname := by
  simp only [lcsCfgKey, cfgKeys, List.find?_cons, strstr_line]
  cases strstr v CfgKey.rootPath.base <;> cases strstr v CfgKey.server.base <;> rfl

/-- A value that is shorter than the first four keys. -/
theorem key_date {v : Bytes} (hv : v.length < 12) :
    lcsCfgKey (CfgKey.date.base ++ v) = some .date := by
  have h1 : strstr v CfgKey.rootPath.base = false := strstr_short (by simp [CfgKey.base]; omega)
  have h2 : strstr v CfgKey.server.base = false := strstr_short (by simp [CfgKey.base]; omega)
  have h3 : strstr v CfgKey.dbname.base = false := strstr_short (by simp [CfgKey.base]; omega)
  have h4 : strstr v CfgKey.listAna.base = false := strstr_short (by simp [CfgKey.base]; omega)
  simp [lcsCfgKey, cfgKeys, strstr_line, h1, h2, h3, h4]

theorem key_week {v : Bytes} (hv : v.length < 12) :
    lcsCfgKey (CfgKey.week.base ++ v) =
      if strstr v CfgKey.date.base then some .date else some .week := by
  have h1 : strstr v CfgKey.rootPath.base = false := strstr_short (by simp [CfgKey.base]; omega)
  have h2 : strstr v CfgKey.server.base = false := strstr_short (by simp [CfgKey.base]; omega)
  have h3 : strstr v CfgKey.dbname.base = false := strstr_short (by simp [CfgKey.base]; omega)
  have h4 : strstr v CfgKey.listAna.base = false := strstr_short (by simp [CfgKey.base]; omega)
  simp only [lcsCfgKey, cfgKeys, List.find?_cons, strstr_line, h1, h2, h3, h4]
  cases strstr v CfgKey.date.base <;> rfl

/-- Names are shorter than keys, and no key has a comma. -/
theorem key_listAna (job : AnalysisJob) :
    lcsCfgKey (CfgKey.listAna.base ++ job.listanalysis) = some .listAna := by
  have hnone : ∀ j : CfgKey, (44 : UInt8) ∉ j.base → 9 ≤ j.base.length →
      strstr job.listanalysis j.base = false := by
    intro j hcomma hlong
    refine decide_eq_false fun hin => ?_
    have hne : j.base ≠ [] := fun h => by simp [h] at hlong
    obtain ⟨t, ht, hin⟩ := infix_intercalate hcomma hne hin
    obtain ⟨name, _, rfl⟩ := List.mem_map.mp ht
    have := hin.length_le
    have := name.lt
    omega
  have h1 := hnone .rootPath (by decide) (by decide)
  have h2 := hnone .server (by decide) (by decide)
  have h3 := hnone .dbname (by decide) (by decide)
  simp [lcsCfgKey, cfgKeys, strstr_line, h1, h2, h3]

/-! ### Lines read one after another -/

variable {info info' : AnalysisInfo} {k : CfgKey}

theorem cfgStore_other {item : Bytes} (h : cfgStore info item = some info')
    (hk : lcsCfgKey item ≠ some k) : info' k = info k := by
  unfold cfgStore at h
  cases hkey : lcsCfgKey item with
  | none =>
    rw [hkey] at h
    cases h
    rfl
  | some j =>
    rw [hkey] at h
    obtain ⟨a, _, rfl⟩ := Option.map_eq_some_iff.mp h
    apply Function.update_of_ne
    rintro rfl
    exact hk hkey

/-- Lines with other keys leave an array as it is. -/
theorem foldlM_other {items : List Bytes} (h : items.foldlM cfgStore info = some info')
    (hk : ∀ item ∈ items, lcsCfgKey item ≠ some k) : info' k = info k := by
  induction items generalizing info with
  | nil =>
    cases h
    rfl
  | cons item items ih =>
    obtain ⟨next, hstep, hrest⟩ := Option.bind_eq_some_iff.mp h
    rw [ih hrest fun x hx => hk x (List.mem_cons_of_mem item hx),
      cfgStore_other hstep (hk item List.mem_cons_self)]

/-- Where all lines have different keys, the one line of a key decides what its array holds in
the end. -/
theorem foldlM_line {items : List Bytes} (h : items.foldlM cfgStore info = some info')
    (hdistinct : (items.map lcsCfgKey).Nodup) {item : Bytes} (hitem : item ∈ items)
    (hkey : lcsCfgKey item = some k) : cfgWrite k (info k) item = some (info' k) := by
  obtain ⟨ps, qs, rfl⟩ := List.append_of_mem hitem
  rw [List.map_append, List.map_cons, List.nodup_append, List.nodup_cons, hkey] at hdistinct
  obtain ⟨_, ⟨hbehind, _⟩, hfront⟩ := hdistinct
  rw [List.foldlM_append] at h
  obtain ⟨before, hbefore, h⟩ := Option.bind_eq_some_iff.mp h
  obtain ⟨next, hstep, hrest⟩ := Option.bind_eq_some_iff.mp h
  rw [cfgStore, hkey] at hstep
  obtain ⟨a, ha, rfl⟩ := Option.map_eq_some_iff.mp hstep
  have hqs : ∀ x ∈ qs, lcsCfgKey x ≠ some k := fun x hx hk =>
    hbehind (hk ▸ List.mem_map_of_mem hx)
  have hps : ∀ x ∈ ps, lcsCfgKey x ≠ some k := fun x hx hk =>
    hfront _ (List.mem_map_of_mem hx) _ List.mem_cons_self hk
  rw [foldlM_other hrest hqs, Function.update_self, ← ha, foldlM_other hbefore hps]

/-- Such lines are all read when each can be written into what stands there at first. -/
theorem foldlM_isSome {items : List Bytes} (hdistinct : (items.map lcsCfgKey).Nodup)
    (hwrite : ∀ x ∈ items, ∀ j, lcsCfgKey x = some j → ∃ a, cfgWrite j (info j) x = some a) :
    ∃ info', items.foldlM cfgStore info = some info' := by
  induction items generalizing info with
  | nil => exact ⟨info, rfl⟩
  | cons item items ih =>
    obtain ⟨hfirst, hrest⟩ := List.nodup_cons.mp hdistinct
    have hnext : ∃ next, cfgStore info item = some next := by
      unfold cfgStore
      cases hkey : lcsCfgKey item with
      | none => exact ⟨info, rfl⟩
      | some j =>
        obtain ⟨a, ha⟩ := hwrite item List.mem_cons_self j hkey
        exact ⟨_, Option.map_eq_some_iff.mpr ⟨a, ha, rfl⟩⟩
    obtain ⟨next, hnext⟩ := hnext
    have hlater : ∀ x ∈ items, ∀ j, lcsCfgKey x = some j →
        ∃ a, cfgWrite j (next j) x = some a := by
      intro x hx j hj
      have hother : lcsCfgKey item ≠ some j := fun hi =>
        hfirst (hi.trans hj.symm ▸ List.mem_map_of_mem hx)
      rw [cfgStore_other hnext hother]
      exact hwrite x (List.mem_cons_of_mem item hx) j hj
    obtain ⟨info', hinfo'⟩ := ih hrest hlater
    exact ⟨info', by rw [List.foldlM_cons, hnext]; exact hinfo'⟩

/-- What is left of the lines when their last byte is cut. -/
def AnalysisJob.items (job : AnalysisJob) : List Bytes :=
  job.cfgLines ++ [CfgKey.year.base.dropLast]

theorem intercalate_length_le (names : List (CStr 9)) :
    ([44].intercalate (names.map CStr.bytes)).length ≤ 9 * names.length := by
  induction names with
  | nil => exact Nat.zero_le _
  | cons t names ih =>
    have ht := t.lt
    cases names with
    | nil =>
      simp
      omega
    | cons u us =>
      rw [List.map_cons] at ih
      rw [List.map_cons, List.map_cons, List.intercalate_cons_cons, List.length_append,
        List.length_append, List.length_singleton, List.length_cons]
      omega

theorem listanalysis_noByte {job : AnalysisJob} {c : UInt8} (hc : c ≠ 44)
    (hnames : ∀ t ∈ job.names, c ∉ t.bytes) : c ∉ job.listanalysis := by
  refine notMem_intercalate hc fun t ht => ?_
  obtain ⟨name, hname, rfl⟩ := List.mem_map.mp ht
  exact hnames name hname

theorem listanalysis_length (job : AnalysisJob) : job.listanalysis.length ≤ 2250 := by
  have := intercalate_length_le job.names
  have := job.count
  unfold AnalysisJob.listanalysis
  omega

theorem cfgLines_fit (job : AnalysisJob) :
    ∀ l ∈ job.cfgLines, (10 : UInt8) ∉ l ∧ l.length + 1 ≤ 4094 := by
  have hbase : ∀ j : CfgKey, (10 : UInt8) ∉ j.base ∧ j.base.length ≤ 15 := by
    intro j
    cases j <;> decide
  have hvalue : ∀ (j : CfgKey) {v : Bytes}, (10 : UInt8) ∉ v → v.length ≤ 2250 →
      (10 : UInt8) ∉ j.base ++ v ∧ (j.base ++ v).length + 1 ≤ 4094 := by
    intro j v hv hlen
    obtain ⟨hnl, hshort⟩ := hbase j
    refine ⟨fun h => (List.mem_append.mp h).elim hnl hv, ?_⟩
    rw [List.length_append]
    omega
  have hlist : (10 : UInt8) ∉ job.listanalysis :=
    listanalysis_noByte (by decide) fun t ht => (job.plainNames t ht).1
  have hroot := job.rootpath.lt
  have hserver := job.server.lt
  have hdb := job.db.lt
  have hdate := job.currentdate.lt
  have hone := job.oneLine
  simp only [List.forall_mem_cons, List.not_mem_nil, false_imp_iff, implies_true, and_true]
    at hone
  obtain ⟨h1, h2, h3, h4⟩ := hone
  unfold AnalysisJob.cfgLines
  simp only [List.forall_mem_cons, List.not_mem_nil, false_imp_iff, implies_true, and_true]
  refine ⟨hvalue _ h1 (by omega), hvalue _ h2 (by omega), hvalue _ h3 (by omega),
    hvalue _ hlist (listanalysis_length job), hvalue _ h4 (by omega), hvalue _ h4 (by omega), ?_,
      ?_⟩
  · exact (hbase .month).1
  · decide

/-- Every line is read in one call. -/
theorem lcsCfgLoad_eq (job : AnalysisJob) :
    lcsCfgLoad info (lcsGenAnalysisCfg job) = job.items.foldlM cfgStore info := by
  have hfile : fgetsAll 4095 (lcsGenAnalysisCfg job) =
      job.cfgLines.map (· ++ [10]) ++ [CfgKey.year.base] := by
    unfold fgetsAll lcsGenAnalysisCfg
    rw [piecesFrom_lines_fit (cfgLines_fit job), piecesFrom_tail (by decide) (by decide)
      (by decide)]
    rfl
  have hcut : ∀ lines : List Bytes, ∀ start : AnalysisInfo,
      (lines.map (· ++ [10])).foldlM lcsCfgItem start = lines.foldlM cfgStore start := by
    intro lines
    induction lines with
    | nil => exact fun _ => rfl
    | cons l lines ih =>
      intro start
      rw [List.map_cons, List.foldlM_cons, List.foldlM_cons, lcsCfgItem, List.dropLast_concat]
      exact congrArg _ (funext ih)
  unfold lcsCfgLoad AnalysisJob.items
  rw [hfile, List.foldlM_append, List.foldlM_append, hcut]
  rfl

/-! ### The names -/

/-- The nine bytes of a name after the copy of `n` bytes at it. -/
def nameCell (n : ℕ) (q : Bytes × Bytes) : Bytes := (q.1 ++ 0 :: q.2).take n ++ zeros (9 - n)

/-- The copy of one name fills the next cell. -/
theorem memcpy_nameCell {n : ℕ} (hn : n ≤ 9) {i r : ℕ} {done : Bytes} (hdone : done.length = 9 * i)
    {q : Bytes × Bytes} (hread : n ≤ (q.1 ++ 0 :: q.2).length) :
    memcpy (done ++ zeros (9 * (r + 1))) (9 * i) ((q.1 ++ 0 :: q.2).take n) =
      (done ++ nameCell n q) ++ zeros (9 * r) ∧ (done ++ nameCell n q).length = 9 * (i + 1) := by
  have hsrc : ((q.1 ++ 0 :: q.2).take n).length = n := List.length_take_of_le hread
  constructor
  · have hzeros : zeros (9 * (r + 1) - n) = zeros (9 - n) ++ zeros (9 * r) := by
      rw [zeros, zeros, zeros, List.replicate_append_replicate]
      congr 1
      omega
    rw [← hdone, memcpy_append_zeros, hsrc, hzeros, nameCell]
    simp only [List.append_assoc]
  · rw [List.length_append, nameCell, List.length_append, hsrc, hdone, zeros,
      List.length_replicate]
    omega

/-- The array after copies of at most nine bytes: one cell for each string. -/
theorem copyNames_eq_some {n : ℕ} (hpos : 1 ≤ n) (hn : n ≤ 9) {i r : ℕ} {done list' : Bytes}
    (hdone : done.length = 9 * i) (ps : List (Bytes × Bytes)) :
    copyNames n i (done ++ zeros (9 * r)) ps = some list' ↔
      (∀ q ∈ ps, n ≤ (q.1 ++ 0 :: q.2).length) ∧ ps.length ≤ r ∧
        list' = done ++ (ps.flatMap (nameCell n) ++ zeros (9 * (r - ps.length))) := by
  induction ps generalizing i r done with
  | nil =>
    rw [copyNames, Option.some_inj]
    constructor
    · rintro rfl
      exact ⟨fun q hq => absurd hq List.not_mem_nil, Nat.zero_le r, rfl⟩
    · rintro ⟨_, _, rfl⟩
      rfl
  | cons q ps ih =>
    obtain ⟨p, behind⟩ := q
    rw [copyNames, List.forall_mem_cons, List.length_cons, List.flatMap_cons]
    by_cases hread : n ≤ (p ++ 0 :: behind).length
    · have hroom : 9 * i + ((p ++ 0 :: behind).take n).length ≤
          (done ++ zeros (9 * r)).length ↔ 1 ≤ r := by
        rw [List.length_take_of_le hread, List.length_append, hdone, zeros, List.length_replicate]
        omega
      rw [if_pos hread, copyField]
      by_cases hr : 1 ≤ r
      · obtain ⟨r, rfl⟩ := Nat.exists_eq_add_of_le' hr
        obtain ⟨hcopy, hlen⟩ := memcpy_nameCell (r := r) (q := (p, behind)) hn hdone hread
        rw [if_pos (hroom.mpr hr), Option.bind_eq_bind, Option.bind_some, hcopy, ih hlen,
          Nat.add_sub_add_right, Nat.add_le_add_iff_right, and_iff_right hread]
        simp only [List.append_assoc]
      · rw [if_neg (fun h => hr (hroom.mp h))]
        refine iff_of_false (fun h => by cases h) ?_
        rintro ⟨_, hle, _⟩
        omega
    · rw [if_neg hread]
      exact iff_of_false (fun h => by cases h) fun h => hread h.1.1

theorem text_zeros (n : ℕ) : text (zeros n) = [] := by
  cases n <;> rfl

theorem text_drop_zeros (n k : ℕ) : text ((zeros n).drop k) = [] := by
  rw [zeros, List.drop_replicate]
  exact text_zeros (n - k)

/-- The string in a cell: the name, cut after `n` bytes. -/
theorem text_nameCells {n : ℕ} (hn : n ≤ 8) {ps : List (Bytes × Bytes)}
    (hps : ∀ q ∈ ps, n ≤ (q.1 ++ 0 :: q.2).length ∧ (0 : UInt8) ∉ q.1) (m j : ℕ) :
    text ((ps.flatMap (nameCell n) ++ zeros m).drop (9 * j)) =
      ((ps.map Prod.fst).getD j []).take n := by
  induction ps generalizing j with
  | nil =>
    rw [List.flatMap_nil, List.nil_append, text_drop_zeros, List.map_nil, List.getD_nil,
      List.take_nil]
  | cons q ps ih =>
    obtain ⟨hread, hnul⟩ := hps q List.mem_cons_self
    have hcell : (nameCell n q).length = 9 := by
      rw [nameCell, List.length_append, List.length_take_of_le hread, zeros, List.length_replicate]
      omega
    rw [List.flatMap_cons, List.append_assoc, List.map_cons]
    cases j with
    | zero =>
      have hstart : ∃ rest, nameCell n q = q.1.take n ++ 0 :: rest := by
        obtain ⟨m, hm⟩ := Nat.exists_eq_add_of_le hn
        rcases Nat.lt_or_ge q.1.length n with hlt | hge
        · refine ⟨q.2.take (n - q.1.length - 1) ++ zeros (9 - n), ?_⟩
          rw [nameCell, List.take_append, List.take_of_length_le (Nat.le_of_lt hlt)]
          obtain ⟨d, hd⟩ := Nat.exists_eq_add_of_lt hlt
          rw [show n - q.1.length = d + 1 by omega, List.take_succ_cons, Nat.add_sub_cancel]
          simp only [List.append_assoc, List.cons_append]
        · refine ⟨zeros m, ?_⟩
          rw [nameCell, List.take_append_of_le_length hge, show 9 - n = m + 1 by omega]
          rfl
      obtain ⟨rest, hrest⟩ := hstart
      rw [Nat.mul_zero, List.drop_zero, List.getD_cons_zero, hrest, List.append_assoc,
        List.cons_append, text_append_nul fun h => hnul (List.mem_of_mem_take h)]
    | succ j =>
      rw [show 9 * (j + 1) = (nameCell n q).length + 9 * j by omega, List.drop_append,
        List.drop_eq_nil_of_le (by omega), List.nil_append, Nat.add_sub_cancel_left,
        List.getD_cons_succ]
      exact ih (fun r hr => hps r (List.mem_cons_of_mem q hr)) j

/-- The names that `strtok` finds: a tab parts a name, and an empty one is not found. -/
def foundNames (names : List (CStr 9)) : List Bytes :=
  names.flatMap fun t => tokensFrom isListEnd [] t.bytes

theorem mem_foundNames {names : List (CStr 9)} {t : Bytes} (ht : t ∈ foundNames names) :
    t ≠ [] ∧ (∀ c ∈ t, isListEnd c = false ∧ c ≠ 0) := by
  obtain ⟨name, hname, ht⟩ := List.mem_flatMap.mp ht
  refine ⟨tokensFrom_ne_nil ht, fun c hc => ?_⟩
  have hmem : c ∈ (tokensFrom isListEnd [] name.bytes).flatten := List.mem_flatten.mpr ⟨t, ht, hc⟩
  rw [tokensFrom_flatten, List.nil_append, List.mem_filter, Bool.not_eq_true'] at hmem
  exact ⟨hmem.2, fun h => name.noNul (h ▸ hmem.1)⟩

theorem foundNames_getD (names : List (CStr 9)) (i : ℕ) :
    (foundNames names).length ≤ i ∧ (foundNames names).getD i [] = [] ∨
      (foundNames names).getD i [] ∈ foundNames names := by
  rcases Nat.lt_or_ge i (foundNames names).length with hi | hi
  · exact Or.inr (List.getD_eq_getElem _ _ hi ▸ List.getElem_mem hi)
  · exact Or.inl ⟨hi, List.getD_eq_default _ _ hi⟩

theorem isListEnd_name {t : CStr 9} (hplain : (10 : UInt8) ∉ t.bytes ∧ (44 : UInt8) ∉ t.bytes)
    (htab : (9 : UInt8) ∉ t.bytes) : ∀ c ∈ t.bytes, isListEnd c = false := by
  intro c hc
  have h9 : c ≠ 9 := fun h => htab (h ▸ hc)
  have h10 : c ≠ 10 := fun h => hplain.1 (h ▸ hc)
  have h44 : c ≠ 44 := fun h => hplain.2 (h ▸ hc)
  simp [isListEnd, h9, h10, h44]

theorem foundNames_length_le {names : List (CStr 9)}
    (hword : ∀ t ∈ names, ∀ c ∈ t.bytes, isListEnd c = false) :
    (foundNames names).length ≤ names.length := by
  induction names with
  | nil => exact le_rfl
  | cons t names ih =>
    have hrest := ih fun u hu => hword u (List.mem_cons_of_mem t hu)
    unfold foundNames at hrest ⊢
    rw [List.flatMap_cons, tokensFrom_word (hword t List.mem_cons_self), List.length_append,
      List.length_cons]
    split_ifs
    · rw [List.length_nil]
      omega
    · rw [List.length_singleton]
      omega

/-- Names without delimiters are found in their places when the empty ones are last. -/
theorem foundNames_getElem? {names : List (CStr 9)}
    (hword : ∀ t ∈ names, ∀ c ∈ t.bytes, isListEnd c = false)
    (hlast : names.Pairwise fun a b => a.bytes = [] → b.bytes = []) {i : ℕ} {name : CStr 9}
    (hi : names[i]? = some name) : (foundNames names).getD i [] = name.bytes := by
  induction names generalizing i with
  | nil => cases hi
  | cons t names ih =>
    obtain ⟨hfirst, hrest⟩ := List.pairwise_cons.mp hlast
    have hwords := fun u hu => tokensFrom_word (hword u hu) []
    unfold foundNames
    rw [List.flatMap_cons, hwords t List.mem_cons_self, List.nil_append]
    by_cases ht : t.bytes = []
    · have hnone : names.flatMap (fun u => tokensFrom isListEnd [] u.bytes) = [] := by
        rw [List.flatMap_eq_nil_iff]
        intro u hu
        rw [hwords u (List.mem_cons_of_mem t hu), List.nil_append, if_pos (hfirst u hu ht)]
      have hname : name.bytes = [] := by
        rcases List.mem_cons.mp (List.mem_of_getElem? hi) with rfl | hmem
        · exact ht
        · exact hfirst name hmem ht
      rw [if_pos ht, hnone, hname]
      rfl
    · rw [if_neg ht]
      cases i with
      | zero =>
        cases hi
        rfl
      | succ i =>
        rw [List.getElem?_cons_succ] at hi
        exact ih (fun u hu => hword u (List.mem_cons_of_mem t hu)) hrest hi

theorem foundNames_headD (names : List (CStr 9)) :
    (foundNames names).headD [] = (foundNames names).getD 0 [] := by
  cases foundNames names <;> rfl

/-- A name is cut to nothing only where no name was found. -/
theorem foundNames_beyond {names : List (CStr 9)} {i : ℕ}
    (h : ((foundNames names).getD i []).take ((foundNames names).getD 0 []).length = []) :
    (foundNames names).length ≤ i := by
  rcases foundNames_getD names i with ⟨hle, _⟩ | hthis
  · exact hle
  · rcases List.take_eq_nil_iff.mp h with h0 | h0
    · rcases foundNames_getD names 0 with ⟨hle, _⟩ | hfirst
      · omega
      · exact absurd (List.eq_nil_of_length_eq_zero h0) (mem_foundNames hfirst).1
    · exact absurd h0 (mem_foundNames hthis).1

/-- Each cell holds the name that belongs there exactly when the names fit. -/
theorem namesFit_iff {names : List (CStr 9)}
    (hplain : ∀ t ∈ names, (10 : UInt8) ∉ t.bytes ∧ (44 : UInt8) ∉ t.bytes) :
    (∀ (i : ℕ) (name : CStr 9), names[i]? = some name →
      ((foundNames names).getD i []).take ((foundNames names).headD []).length = name.bytes) ↔
      NamesFit names := by
  rw [foundNames_headD]
  constructor
  · intro h
    refine ⟨?_, ?_, ?_⟩
    · intro t ht htab
      obtain ⟨i, hi⟩ := List.mem_iff_getElem?.mp ht
      rw [← h i t hi] at htab
      have hmem := List.mem_of_mem_take htab
      rcases foundNames_getD names i with ⟨_, hnil⟩ | hin
      · rw [hnil] at hmem
        cases hmem
      · exact absurd ((mem_foundNames hin).2 9 hmem).1 (by decide)
    · rw [List.pairwise_iff_getElem]
      intro i j hi hj hij hempty
      rw [← h i _ (List.getElem?_eq_getElem hi)] at hempty
      rw [← h j _ (List.getElem?_eq_getElem hj)]
      have hbeyond := foundNames_beyond hempty
      have hnone : (foundNames names).getD j [] = [] := List.getD_eq_default _ _ (by omega)
      rw [hnone, List.take_nil]
    · intro a ha b hb
      obtain ⟨j, hj⟩ := List.mem_iff_getElem?.mp hb
      have hfirst := h 0 a (by rw [← List.head?_eq_getElem?]; exact ha)
      rw [List.take_length] at hfirst
      rw [← hfirst, ← h j b hj]
      exact List.length_take_le _ _
  · rintro ⟨htab, hlast, hlong⟩
    have hword := fun t ht => isListEnd_name (hplain t ht) (htab t ht)
    intro i name hi
    have hthis := foundNames_getElem? hword hlast hi
    obtain ⟨first, rest, hnames⟩ := List.exists_cons_of_ne_nil
      (List.ne_nil_of_mem (List.mem_of_getElem? hi))
    have hhead : names[0]? = some first := hnames ▸ rfl
    rw [foundNames_getElem? hword hlast hhead, hthis]
    exact List.take_of_length_le
      (hlong first (by rw [List.head?_eq_getElem?, hhead]; rfl) name (List.mem_of_getElem? hi))

/-- The copies behind the first leave the first byte as it is. -/
theorem copyNames_first {n i : ℕ} {list list' : Bytes} {ps : List (Bytes × Bytes)}
    (h : copyNames n (i + 1) list ps = some list') : byteAt list' 0 = byteAt list 0 := by
  induction ps generalizing i list with
  | nil =>
    cases h
    rfl
  | cons q ps ih =>
    obtain ⟨p, behind⟩ := q
    rw [copyNames] at h
    split_ifs at h
    obtain ⟨next, hcopy, hrest⟩ := Option.bind_eq_some_iff.mp h
    unfold copyField at hcopy
    split_ifs at hcopy
    cases hcopy
    rw [ih hrest, byteAt_memcpy_of_lt (by omega) (by omega)]

section Names

variable (job : AnalysisJob)

/-- The bytes of the line's buffer behind the key of the list. -/
theorem listBuffer : ∃ m, 8 ≤ m ∧
    (CfgKey.listAna.base ++ job.listanalysis).drop CfgKey.listAna.base.length ++
      zeros (4096 - (CfgKey.listAna.base ++ job.listanalysis).length) =
        job.listanalysis ++ 0 :: zeros m := by
  have hlen := listanalysis_length job
  have hbase : CfgKey.listAna.base.length = 14 := rfl
  refine ⟨4081 - job.listanalysis.length, by omega, ?_⟩
  rw [List.drop_left, List.length_append, hbase,
    show 4096 - (14 + job.listanalysis.length) = 4081 - job.listanalysis.length + 1 by omega]
  rfl

/-- The strings of the list are the names found. -/
theorem listStrings (m : ℕ) :
    (stringsFrom isListEnd [] (job.listanalysis ++ 0 :: zeros m)).map Prod.fst =
      foundNames job.names := by
  rw [stringsFrom_fst (listanalysis_noByte (by decide) fun t _ => t.noNul)]
  unfold AnalysisJob.listanalysis foundNames
  rw [tokensFrom_intercalate_flatMap (by decide), List.flatMap_map]

theorem listStrings_snd {m : ℕ} {q : Bytes × Bytes}
    (hq : q ∈ stringsFrom isListEnd [] (job.listanalysis ++ 0 :: zeros m)) :
    (0 : UInt8) ∉ q.1 ∧ m ≤ q.2.length := by
  constructor
  · have hfound : q.1 ∈ foundNames job.names := listStrings job m ▸ List.mem_map_of_mem hq
    exact fun h => ((mem_foundNames hfound).2 0 h).2 rfl
  · have := stringsFrom_snd [] job.listanalysis (zeros m) hq
    rwa [zeros, List.length_replicate] at this

theorem takeWhile_listEnd {s : Bytes} (h : s.takeWhile isListEnd = []) (z : Bytes) :
    (s ++ 0 :: z).takeWhile isListEnd = [] := by
  cases s with
  | nil => rfl
  | cons c s =>
    rw [List.takeWhile_eq_nil_iff] at h ⊢
    intro _
    exact h (Nat.succ_pos _)

/-- Where no delimiter stands in front, each cell holds its name cut after the length of the
first. -/
theorem lcsCfgList_cells (hfirst : job.listanalysis.takeWhile isListEnd = [])
    (hshort : ((foundNames job.names).headD []).length ≤ 8) :
    ((foundNames job.names).length ≤ 250 → ∃ list, lcsCfgList (zeros 2250)
      (CfgKey.listAna.base ++ job.listanalysis) = some list) ∧
    ∀ list, lcsCfgList (zeros 2250) (CfgKey.listAna.base ++ job.listanalysis) = some list →
      ∀ j, text (list.drop (9 * j)) =
        ((foundNames job.names).getD j []).take ((foundNames job.names).headD []).length := by
  obtain ⟨m, hm, hbuffer⟩ := listBuffer job
  have hfst := listStrings job m
  have hsnd := fun q hq => listStrings_snd job (m := m) (q := q) hq
  unfold lcsCfgList
  simp only [hbuffer, takeWhile_listEnd hfirst]
  cases hps : stringsFrom isListEnd [] (job.listanalysis ++ 0 :: zeros m) with
  | nil =>
    rw [hps] at hfst
    rw [← hfst]
    refine ⟨fun _ => ⟨_, rfl⟩, fun list hlist j => ?_⟩
    cases hlist
    exact text_drop_zeros 2250 (9 * j)
  | cons q qs =>
    rw [hps] at hfst hsnd
    have hhead : (foundNames job.names).headD [] = q.1 := by
      rw [← hfst]
      rfl
    have hpos : 1 ≤ q.1.length := by
      have hmem : q.1 ∈ foundNames job.names := hfst ▸ List.mem_cons_self
      exact List.length_pos_of_ne_nil (mem_foundNames hmem).1
    rw [hhead] at hshort ⊢
    have hreads : ∀ r ∈ q :: qs, q.1.length ≤ (r.1 ++ 0 :: r.2).length := by
      intro r hr
      have := (hsnd r hr).2
      rw [List.length_append, List.length_cons]
      omega
    have hcopy := fun list =>
      @copyNames_eq_some q.1.length hpos (by omega) 0 250 [] list rfl (q :: qs)
    rw [List.nil_append] at hcopy
    have hcount : (q :: qs).length = (foundNames job.names).length := by
      rw [← hfst, List.length_map]
    simp only [List.length_nil, Nat.zero_add]
    constructor
    · intro hle
      exact ⟨_, (hcopy _).mpr ⟨hreads, by omega, rfl⟩⟩
    · intro list hlist j
      obtain ⟨_, _, rfl⟩ := (hcopy list).mp hlist
      rw [List.nil_append, text_nameCells hshort fun r hr => ⟨hreads r hr, (hsnd r hr).1⟩, hfst]

/-- A list whose first name starts with no delimiter: nothing stands in front of the first
string, which is a part of that name. -/
theorem list_starts {first : CStr 9} {rest : List (CStr 9)} (hnames : job.names = first :: rest)
    {c : UInt8} {s : Bytes} (hc : first.bytes = c :: s) (hend : isListEnd c = false) :
    job.listanalysis.takeWhile isListEnd = [] ∧
      ((foundNames job.names).headD []).length ≤ 8 := by
  constructor
  · have hstart : ∃ tail, job.listanalysis = c :: tail := by
      unfold AnalysisJob.listanalysis
      rw [hnames, List.map_cons, hc]
      cases rest with
      | nil => exact ⟨s, by simp⟩
      | cons u us => exact ⟨s ++ [44] ++ [44].intercalate (u.bytes :: us.map CStr.bytes), by
          rw [List.map_cons, List.intercalate_cons_cons]
          rfl⟩
    obtain ⟨tail, htail⟩ := hstart
    rw [htail, List.takeWhile_cons_of_neg (by rw [hend]; exact Bool.false_ne_true)]
  · have hflat : (tokensFrom isListEnd [] first.bytes).flatten =
        [] ++ first.bytes.filter (fun c => !isListEnd c) := tokensFrom_flatten [] first.bytes
    have hmem : c ∈ (tokensFrom isListEnd [] first.bytes).flatten := by
      rw [hflat, List.nil_append, hc, List.mem_filter]
      exact ⟨List.mem_cons_self, by rw [hend]; rfl⟩
    obtain ⟨t, ht, _⟩ := List.mem_flatten.mp hmem
    obtain ⟨t0, ts, hts⟩ := List.exists_cons_of_ne_nil (List.ne_nil_of_mem ht)
    have hhead : (foundNames job.names).headD [] = t0 := by
      unfold foundNames
      rw [hnames, List.flatMap_cons, hts]
      rfl
    have hlen := congrArg List.length hflat
    rw [hts, List.flatten_cons, List.length_append, List.nil_append] at hlen
    have hfilter := List.length_filter_le (fun c => !isListEnd c) first.bytes
    have hlt := first.lt
    rw [hhead]
    omega

theorem list_none (h : foundNames job.names = []) :
    lcsCfgList (zeros 2250) (CfgKey.listAna.base ++ job.listanalysis) = some (zeros 2250) := by
  obtain ⟨m, _, hbuffer⟩ := listBuffer job
  have hfst := listStrings job m
  rw [h, List.map_eq_nil_iff] at hfst
  unfold lcsCfgList
  simp only [hbuffer, hfst]

/-- The first string of the array starts as the first name found. -/
theorem list_first_byte {list : Bytes}
    (h : lcsCfgList (zeros 2250) (CfgKey.listAna.base ++ job.listanalysis) = some list) :
    foundNames job.names = [] ∧ list = zeros 2250 ∨
      ∃ c s, text list = c :: s ∧ isListEnd c = false := by
  obtain ⟨m, _, hbuffer⟩ := listBuffer job
  have hfst := listStrings job m
  unfold lcsCfgList at h
  simp only [hbuffer] at h
  cases hps : stringsFrom isListEnd [] (job.listanalysis ++ 0 :: zeros m) with
  | nil =>
    rw [hps] at hfst h
    cases h
    exact Or.inl ⟨hfst.symm, rfl⟩
  | cons q qs =>
    rw [hps] at hfst h
    obtain ⟨p, behind⟩ := q
    have hmem : p ∈ foundNames job.names := hfst ▸ List.mem_cons_self
    obtain ⟨hne, hbytes⟩ := mem_foundNames hmem
    obtain ⟨c, r, rfl⟩ := List.exists_cons_of_ne_nil hne
    obtain ⟨hend, h0⟩ := hbytes c List.mem_cons_self
    change copyNames _ 0 _ _ = some list at h
    rw [copyNames] at h
    split_ifs at h
    obtain ⟨next, hcopy, hrest⟩ := Option.bind_eq_some_iff.mp h
    unfold copyField at hcopy
    split_ifs at hcopy
    cases hcopy
    have hbyte : byteAt list 0 = c := by
      rw [copyNames_first hrest, Nat.mul_zero, memcpy_start, List.length_cons, ← Nat.add_assoc]
      rfl
    cases list with
    | nil => exact absurd hbyte.symm h0
    | cons x s =>
      rw [byteAt, List.getD_cons_zero] at hbyte
      refine Or.inr ⟨c, text s, ?_, hend⟩
      have hkept : (c != 0) = true := bne_iff_ne.mpr h0
      unfold text
      rw [hbyte, List.takeWhile_cons, if_pos hkept]

/-- The list comes back exactly when its names fit. -/
theorem names_restored_iff :
    (∃ list, lcsCfgList (zeros 2250) (CfgKey.listAna.base ++ job.listanalysis) = some list ∧
      ∀ i name, job.names[i]? = some name → text (list.drop (9 * i)) = name.bytes) ↔
      NamesFit job.names := by
  obtain ⟨first, rest, hnames⟩ := List.exists_cons_of_ne_nil job.names_ne
  have hhead : job.names[0]? = some first := hnames ▸ rfl
  constructor
  · rintro ⟨list, hlist, hcells⟩
    rw [← namesFit_iff job.plainNames]
    rcases list_first_byte job hlist with ⟨hnone, rfl⟩ | ⟨c, s, hc, hend⟩
    · intro i name hi
      rw [← hcells i name hi, hnone, List.getD_nil, List.take_nil, text_drop_zeros]
    · have hfirst : first.bytes = c :: s := (hcells 0 first hhead).symm.trans hc
      obtain ⟨hlead, hshort⟩ := list_starts job hnames hfirst hend
      intro i name hi
      rw [← (lcsCfgList_cells job hlead hshort).2 list hlist i, hcells i name hi]
  · intro h
    have hword := fun t ht => isListEnd_name (job.plainNames t ht) (h.noTab t ht)
    cases hfirst : first.bytes with
    | nil =>
      have hempty : ∀ t ∈ job.names, t.bytes = [] := by
        intro t ht
        have hle := h.firstLongest first (by rw [hnames]; rfl) t ht
        rw [hfirst] at hle
        exact List.eq_nil_of_length_eq_zero (Nat.le_zero.mp hle)
      have hnone : foundNames job.names = [] := by
        unfold foundNames
        rw [List.flatMap_eq_nil_iff]
        intro t ht
        rw [hempty t ht]
        rfl
      refine ⟨zeros 2250, list_none job hnone, fun i name hi => ?_⟩
      rw [hempty name (List.mem_of_getElem? hi), text_drop_zeros]
    | cons c s =>
      have hmem : first ∈ job.names := List.mem_of_getElem? hhead
      obtain ⟨hlead, hshort⟩ := list_starts job hnames hfirst
        (hword first hmem c (hfirst ▸ List.mem_cons_self))
      obtain ⟨hexists, hcells⟩ := lcsCfgList_cells job hlead hshort
      obtain ⟨list, hlist⟩ := hexists ((foundNames_length_le hword).trans job.count)
      exact ⟨list, hlist, fun i name hi =>
        (hcells list hlist i).trans ((namesFit_iff job.plainNames).mpr h i name hi)⟩

end Names

/-! ### The whole file -/

/-- A value that fits is copied to a cleared array and read back. -/
theorem cfgWrite_zeros {k : CfgKey} (hk : k ≠ .listAna) {v : Bytes} (hv : v.length < k.size)
    (hnul : (0 : UInt8) ∉ v) :
    ∃ a, cfgWrite k (zeroInfo k) (k.base ++ v) = some a ∧ text a = v := by
  obtain ⟨m, hm⟩ : ∃ m, k.size - v.length = m + 1 := ⟨k.size - v.length - 1, by omega⟩
  refine ⟨v ++ zeros (m + 1), ?_, text_append_nul hnul (zeros m)⟩
  unfold cfgWrite copyField zeroInfo
  rw [if_neg hk, List.drop_left, if_pos (by rw [zeros, List.length_replicate]; omega),
    memcpy_zeros, hm]

theorem strstr_eq_false_iff {s base : Bytes} : strstr s base = false ↔ ¬ base <:+: s :=
  decide_eq_false_iff_not

/-- The keys of the lines: three lines can be taken for another's. -/
theorem items_keys (job : AnalysisJob) :
    job.items.map lcsCfgKey =
      [some .rootPath,
        if strstr job.server.bytes CfgKey.rootPath.base then some .rootPath else some .server,
        if strstr job.db.bytes CfgKey.rootPath.base then some .rootPath
        else if strstr job.db.bytes CfgKey.server.base then some .server else some .dbname,
        some .listAna, some .date,
        if strstr job.currentdate.bytes CfgKey.date.base then some .date else some .week,
        some .month, none] := by
  have hmonth : lcsCfgKey CfgKey.month.base = some .month := by decide
  have hyear : lcsCfgKey CfgKey.year.base.dropLast = none := by decide
  unfold AnalysisJob.items AnalysisJob.cfgLines
  simp only [List.cons_append, List.nil_append, List.map_cons, List.map_nil, key_rootPath,
    key_server, key_dbname, key_listAna, key_date job.currentdate.lt, key_week job.currentdate.lt,
    hmonth, hyear]

theorem keysFit_keys {job : AnalysisJob} (h : KeysFit job) :
    job.items.map lcsCfgKey =
      [some .rootPath, some .server, some .dbname, some .listAna, some .date, some .week,
        some .month, none] := by
  rw [items_keys, strstr_eq_false_iff.mpr h.server, strstr_eq_false_iff.mpr h.dbRoot,
    strstr_eq_false_iff.mpr h.dbServer, strstr_eq_false_iff.mpr h.date]
  rfl

/-- The same, line by line. -/
theorem keysFit_lines {job : AnalysisJob} (h : KeysFit job) :
    lcsCfgKey (CfgKey.rootPath.base ++ job.rootpath.bytes) = some .rootPath ∧
      lcsCfgKey (CfgKey.server.base ++ job.server.bytes) = some .server ∧
      lcsCfgKey (CfgKey.dbname.base ++ job.db.bytes) = some .dbname ∧
      lcsCfgKey (CfgKey.listAna.base ++ job.listanalysis) = some .listAna ∧
      lcsCfgKey (CfgKey.date.base ++ job.currentdate.bytes) = some .date ∧
      lcsCfgKey (CfgKey.week.base ++ job.currentdate.bytes) = some .week ∧
      lcsCfgKey CfgKey.month.base = some .month ∧
      lcsCfgKey CfgKey.year.base.dropLast = none := by
  have hkeys := keysFit_keys h
  unfold AnalysisJob.items AnalysisJob.cfgLines at hkeys
  simp only [List.cons_append, List.nil_append, List.map_cons, List.map_nil, List.cons.injEq,
    and_true] at hkeys
  exact hkeys

theorem keysFit_nodup {job : AnalysisJob} (h : KeysFit job) :
    (job.items.map lcsCfgKey).Nodup := by
  rw [keysFit_keys h]
  decide

/-- An array whose key no line has stays cleared. -/
theorem text_unread {job : AnalysisJob} {info : AnalysisInfo}
    (h : job.items.foldlM cfgStore zeroInfo = some info) {k : CfgKey}
    (hk : some k ∉ job.items.map lcsCfgKey) : text (info k) = [] := by
  rw [foldlM_other h fun item hitem hkey => hk (hkey ▸ List.mem_map_of_mem hitem)]
  exact text_zeros _

theorem base_not_infix_nil (k : CfgKey) : ¬ k.base <:+: [] := by
  rw [List.infix_nil]
  cases k <;> exact List.cons_ne_nil _ _

/-- Values that come back hold no earlier key. -/
theorem keysFit_of_restored {job : AnalysisJob} {info : AnalysisInfo}
    (h : job.items.foldlM cfgStore zeroInfo = some info) (hr : Restored job info) :
    KeysFit job := by
  have hkeys := items_keys job
  have hdb : strstr job.db.bytes CfgKey.rootPath.base = false ∧
      strstr job.db.bytes CfgKey.server.base = false := by
    by_contra hbad
    have hunread : some .dbname ∉ job.items.map lcsCfgKey := by
      rw [hkeys]
      revert hbad
      generalize strstr job.server.bytes CfgKey.rootPath.base = inServer
      generalize strstr job.db.bytes CfgKey.rootPath.base = rootInDb
      generalize strstr job.db.bytes CfgKey.server.base = serverInDb
      generalize strstr job.currentdate.bytes CfgKey.date.base = inDate
      revert inServer rootInDb serverInDb inDate
      decide
    have hnil := hr.dbname.symm.trans (text_unread h hunread)
    rw [hnil, strstr_eq_false_iff, strstr_eq_false_iff] at hbad
    exact hbad ⟨base_not_infix_nil _, base_not_infix_nil _⟩
  rw [hdb.1, hdb.2] at hkeys
  refine ⟨?_, strstr_eq_false_iff.mp hdb.1, strstr_eq_false_iff.mp hdb.2, ?_⟩
  · intro hin
    have htrue : strstr job.server.bytes CfgKey.rootPath.base = true := decide_eq_true hin
    have hunread : some .server ∉ job.items.map lcsCfgKey := by
      rw [hkeys, htrue]
      generalize strstr job.currentdate.bytes CfgKey.date.base = inDate
      revert inDate
      decide
    have hnil := hr.server.symm.trans (text_unread h hunread)
    exact base_not_infix_nil _ (hnil ▸ hin)
  · intro hin
    have htrue : strstr job.currentdate.bytes CfgKey.date.base = true := decide_eq_true hin
    have hunread : some .week ∉ job.items.map lcsCfgKey := by
      rw [hkeys, htrue]
      generalize strstr job.server.bytes CfgKey.rootPath.base = inServer
      revert inServer
      decide
    have hnil := hr.week.symm.trans (text_unread h hunread)
    exact base_not_infix_nil _ (hnil ▸ hin)

/-- What each line of a job that fits leaves in its array. -/
theorem cfgWrite_items {job : AnalysisJob} (hfit : KeysFit job) (hnames : NamesFit job.names) :
    ∀ x ∈ job.items, ∀ j, lcsCfgKey x = some j → ∃ a, cfgWrite j (zeroInfo j) x = some a := by
  have hplain : ∀ (k : CfgKey) {v : Bytes}, k ≠ .listAna → v.length < k.size → (0 : UInt8) ∉ v →
      lcsCfgKey (k.base ++ v) = some k → ∀ j, lcsCfgKey (k.base ++ v) = some j →
      ∃ a, cfgWrite j (zeroInfo j) (k.base ++ v) = some a := by
    intro k v hk hv hnul hkey j hj
    obtain ⟨a, ha, _⟩ := cfgWrite_zeros hk hv hnul
    cases hkey.symm.trans hj
    exact ⟨a, ha⟩
  obtain ⟨hroot, hserver, hdb, hlist, hdate, hweek, hmonth, hyear⟩ := keysFit_lines hfit
  unfold AnalysisJob.items AnalysisJob.cfgLines
  simp only [List.cons_append, List.nil_append, List.forall_mem_cons, List.not_mem_nil,
    false_imp_iff, implies_true, and_true]
  refine ⟨?_, ?_, ?_, ?_, ?_, ?_, ?_, ?_⟩
  · exact hplain .rootPath (by decide) job.rootpath.lt job.rootpath.noNul hroot
  · exact hplain .server (by decide) job.server.lt job.server.noNul hserver
  · exact hplain .dbname (by decide) job.db.lt job.db.noNul hdb
  · intro j hj
    obtain ⟨list, hwrite, _⟩ := (names_restored_iff job).mpr hnames
    cases hlist.symm.trans hj
    exact ⟨list, hwrite⟩
  · exact hplain .date (by decide) job.currentdate.lt job.currentdate.noNul hdate
  · exact hplain .week (by decide) job.currentdate.lt job.currentdate.noNul hweek
  · rw [← List.append_nil CfgKey.month.base] at hmonth ⊢
    exact hplain .month (by decide) (by decide) List.not_mem_nil hmonth
  · intro j hj
    rw [hyear] at hj
    cases hj

theorem mem_items {job : AnalysisJob} {l : Bytes} (hl : l ∈ job.cfgLines) : l ∈ job.items :=
  List.mem_append_left _ hl

/-- A value comes back from the only line with its key. -/
theorem line_restored {job : AnalysisJob} {info : AnalysisInfo} (hfit : KeysFit job)
    (hload : job.items.foldlM cfgStore zeroInfo = some info) {k : CfgKey} {v : Bytes}
    (hk : k ≠ .listAna) (hv : v.length < k.size) (hnul : (0 : UInt8) ∉ v)
    (hline : k.base ++ v ∈ job.cfgLines) (hkey : lcsCfgKey (k.base ++ v) = some k) :
    text (info k) = v := by
  obtain ⟨a, ha, hread⟩ := cfgWrite_zeros hk hv hnul
  have hin := foldlM_line hload (keysFit_nodup hfit) (mem_items hline) hkey
  rw [← Option.some_inj.mp (ha.symm.trans hin), hread]

/-- A job is read as it was written if and only if no value holds a key that is looked for
before its own, and the names fit. -/
theorem config_round_trip_iff (job : AnalysisJob) :
    ConfigRoundTrip job ↔ KeysFit job ∧ NamesFit job.names := by
  have hlistMem : CfgKey.listAna.base ++ job.listanalysis ∈ job.cfgLines := by
    simp [AnalysisJob.cfgLines]
  unfold ConfigRoundTrip
  simp only [lcsCfgLoad_eq]
  constructor
  · rintro ⟨info, hload, hr⟩
    have hfit := keysFit_of_restored hload hr
    have hlist := foldlM_line hload (keysFit_nodup hfit) (mem_items hlistMem) (key_listAna job)
    exact ⟨hfit, (names_restored_iff job).mp ⟨_, hlist, hr.listAna⟩⟩
  · rintro ⟨hfit, hnames⟩
    obtain ⟨info, hload⟩ := foldlM_isSome (keysFit_nodup hfit) (cfgWrite_items hfit hnames)
    obtain ⟨hroot, hserver, hdb, -, hdate, hweek, -, -⟩ := keysFit_lines hfit
    refine ⟨info, hload, ?_, ?_, ?_, ?_, ?_, ?_⟩
    · exact line_restored hfit hload (k := .rootPath) (by decide) job.rootpath.lt job.rootpath.noNul
        (by simp [AnalysisJob.cfgLines]) hroot
    · exact line_restored hfit hload (k := .server) (by decide) job.server.lt job.server.noNul
        (by simp [AnalysisJob.cfgLines]) hserver
    · exact line_restored hfit hload (k := .dbname) (by decide) job.db.lt job.db.noNul
        (by simp [AnalysisJob.cfgLines]) hdb
    · exact line_restored hfit hload (k := .date) (by decide) job.currentdate.lt
        job.currentdate.noNul (by simp [AnalysisJob.cfgLines]) hdate
    · exact line_restored hfit hload (k := .week) (by decide) job.currentdate.lt
        job.currentdate.noNul (by simp [AnalysisJob.cfgLines]) hweek
    · obtain ⟨list, hwrite, hcells⟩ := (names_restored_iff job).mpr hnames
      have hin := foldlM_line hload (keysFit_nodup hfit) (mem_items hlistMem) (key_listAna job)
      rw [← Option.some_inj.mp (hwrite.symm.trans hin)]
      exact hcells

theorem noNul_A : (0 : UInt8) ∉ ([65] : Bytes) := by decide

theorem noNul_AB : (0 : UInt8) ∉ ([65, 66] : Bytes) := by decide

/-- `"A"` in an array. -/
def valueA {n : ℕ} (h : 1 < n) : CStr n := ⟨[65], h, noNul_A⟩

/-- The job of the list `"A,AB"`. -/
def twoNames : AnalysisJob where
  rootpath := valueA (by decide)
  server := valueA (by decide)
  db := valueA (by decide)
  currentdate := valueA (by decide)
  names := [valueA (by decide), ⟨[65, 66], by decide, noNul_AB⟩]
  names_ne := List.cons_ne_nil _ _
  count := by decide
  oneLine := by decide
  plainNames := by decide

/-- The second name is read as `"A"` too. -/
theorem config_cuts_names :
    (lcsCfgLoad zeroInfo (lcsGenAnalysisCfg twoNames)).map
        (fun info => text ((info .listAna).drop 9)) = some [65] ∧
      ¬ ConfigRoundTrip twoNames := by
  have hread : (lcsCfgLoad zeroInfo (lcsGenAnalysisCfg twoNames)).map
      (fun info => text ((info .listAna).drop 9)) = some [65] := by decide +kernel
  refine ⟨hread, ?_⟩
  rintro ⟨info, hload, hr⟩
  have hsecond := hr.listAna 1 ⟨[65, 66], by decide, noNul_AB⟩ rfl
  rw [hload, Option.map_some, Option.some_inj, hsecond] at hread
  exact absurd hread (by decide)

end MemoryLeak.Cluster
