import MemoryLeak.DateText
import MemoryLeak.Cluster.Requests

/-!
# Directories of dates

The directory that the collector makes for a window (`lcs_get_date`, `lcs_mk_dir`) and the file
that the warehouse server opens for a request (`lcs_whs_get_path`). One reads numbers from the text
of the date and prints them, the other edits the text.
-/
namespace MemoryLeak.Cluster.Texts
open MemoryLeak.CBytes MemoryLeak.CText MemoryLeak.Calendar MemoryLeak.DateText

/-! ### The collector -/

/-- A part of a format of `sscanf`. -/
inductive Conversion where
  | d
  | lit (c : UInt8)
  | blank
deriving DecidableEq

/-- `%d`: the number and what follows it. -/
def scanInt (s : Bytes) : Option (ℤ × Bytes) :=
  let r := scanSign (s.dropWhile isSpace)
  let ds := r.2.takeWhile isDigit
  if ds = [] then none
  else some (if r.1 then -(digitsVal ds : ℤ) else digitsVal ds, r.2.dropWhile isDigit)

/-- The numbers read before a part that does not match. -/
def sscanf : List Conversion → Bytes → List ℤ
  | [], _ => []
  | .d :: format, s =>
    match scanInt s with
    | none => []
    | some (v, s) => v :: sscanf format s
  | .lit c :: format, s =>
    match s with
    | [] => []
    | c' :: s => if c' = c then sscanf format s else []
  | .blank :: format, s => sscanf format (s.dropWhile isSpace)

/-- `LCS_DATE_DIR`. -/
structure LcsDateDir where
  year : UInt16
  month : UInt8
  day : UInt8
  hour : UInt8
  min : UInt8
deriving DecidableEq

/-- `%d-%d-%d %d:%d:00`. -/
def dateDirFormat : List Conversion :=
  [.d, .lit 45, .d, .lit 45, .d, .blank, .d, .lit 58, .d, .lit 58, .lit 48, .lit 48]

/-- What is not read is 0; the numbers are reduced to the types of the fields. -/
def lcsGetDate (starttime : Bytes) : LcsDateDir :=
  let vs := sscanf dateDirFormat (text starttime)
  let byte i := UInt8.ofNat (vs.getD i 0 % 256).toNat
  ⟨UInt16.ofNat (vs.getD 0 0 % 65536).toNat, byte 1, byte 2, byte 3, byte 4⟩

/-- `LCS_MYSQL_INFO`, the names that a directory is made of. -/
structure LcsMysqlInfo where
  server : CStr 128
  db : CStr 64
  path : CStr 128

/-- `"%s/%s/%s/%4d/%02d/%02d/%02d/%02d/"`, which becomes `current_dir` and goes to `mkdir -p`. -/
def lcsMkDir (info : LcsMysqlInfo) (date : LcsDateDir) : Bytes :=
  info.path.bytes ++ 47 :: (info.server.bytes ++ 47 :: (info.db.bytes ++
    47 :: (padLeft 4 32 (natDec date.year.toNat) ++ 47 :: (padLeft 2 48 (natDec date.month.toNat) ++
      47 :: (padLeft 2 48 (natDec date.day.toNat) ++ 47 :: (padLeft 2 48 (natDec date.hour.toNat) ++
        47 :: (padLeft 2 48 (natDec date.min.toNat) ++ [47])))))))

/-- The directory of the window that starts at `low`. -/
def lcsCreateSubdir (info : LcsMysqlInfo) (low : Bytes) : Bytes :=
  lcsMkDir info (lcsGetDate (memcpy (zeros 64) 0 (text low)))

/-! ### The server -/

/-- The loop over `datefrom`, up to its end. -/
def replaceSeparators : Bytes → Bytes
  | [] => []
  | c :: s =>
    if c = 0 then c :: s
    else (if c = 45 ∨ c = 32 ∨ c = 58 then 47 else c) :: replaceSeparators s

/-- Where the text is cut; the mode `week` and a mode that is not known cut nothing. -/
def modeCut (mode : Bytes) : Option ℕ :=
  if strcmp mode [121, 101, 97, 114] = 0 then some 4
  else if strcmp mode [109, 111, 110, 116, 104] = 0 then some 7
  else if strcmp mode [119, 101, 101, 107] = 0 then none
  else if strcmp mode [100, 97, 121] = 0 then some 10
  else if strcmp mode [104, 111, 117, 114] = 0 then some 13
  else if strcmp mode [109, 105, 110, 117, 116, 101] = 0 then some 16
  else none

/-- `.analysis`. -/
def analysisSuffix : Bytes := [46, 97, 110, 97, 108, 121, 115, 105, 115]

/-- `"%s/%s/%s/%s/%s.analysis"`; a path that does not fit in its 1024 bytes has no outcome. -/
def lcsWhsGetPath (rootpath : CStr 1024) (p : LcsWhsRequestData) : Option Bytes :=
  let datefrom := replaceSeparators (memcpy (zeros 64) 0 p.datefrom.bytes)
  let datefrom :=
    match modeCut p.mode.bytes with
    | some i => datefrom.set i 0
    | none => datefrom
  let path := rootpath.bytes ++ 47 :: (p.dbserver.bytes ++ 47 :: (p.dbname.bytes ++
    47 :: (text datefrom ++ 47 :: (p.analysis.bytes ++ analysisSuffix))))
  if path.length < 1024 then some path else none

/-! ### What the two agree on -/

/-- The modes that name a component of the date. -/
inductive DateMode where
  | year
  | month
  | day
  | hour
  | minute
deriving DecidableEq

def DateMode.text : DateMode → Bytes
  | .year => [121, 101, 97, 114]
  | .month => [109, 111, 110, 116, 104]
  | .day => [100, 97, 121]
  | .hour => [104, 111, 117, 114]
  | .minute => [109, 105, 110, 117, 116, 101]

/-- The components of the date up to the one that the mode names. -/
def DateMode.depth : DateMode → ℕ
  | .year => 1
  | .month => 2
  | .day => 3
  | .hour => 4
  | .minute => 5

/-- What stands before the last slash. -/
def dirname (s : Bytes) : Bytes := ((s.reverse.dropWhile (· ≠ 47)).drop 1).reverse

/-- A directory of five date components, cut after the one that the mode names. -/
def cutAfter (mode : DateMode) (dir : Bytes) : Bytes := dirname^[6 - mode.depth] dir

theorem dirname_append (a : Bytes) {b : Bytes} (hb : (47 : UInt8) ∉ b) :
    dirname (a ++ 47 :: b) = a := by
  have hrest : ∀ c ∈ b.reverse, decide (c ≠ 47) = true := fun c hc =>
    decide_eq_true fun h => hb (h ▸ List.mem_reverse.mp hc)
  rw [dirname, List.reverse_append, List.reverse_cons, List.append_assoc,
    List.dropWhile_append_of_pos hrest]
  simp

/-- What follows a slash may have a later one. -/
theorem length_dirname_append (a : Bytes) {b : Bytes} (hb : (47 : UInt8) ∈ b) :
    a.length < (dirname (a ++ 47 :: b)).length := by
  obtain ⟨after, before, heq, hafter⟩ := List.eq_append_cons_of_mem (List.mem_reverse.mpr hb)
  have hsplit : a ++ 47 :: b = (a ++ 47 :: before.reverse) ++ 47 :: after.reverse := by
    rw [← List.reverse_reverse b, heq]
    simp
  rw [hsplit, dirname_append _ fun h => hafter (List.mem_reverse.mp h), List.length_append,
    List.length_cons]
  omega

/-- The parents of a path, component by component. -/
theorem dirname_iterate (base : Bytes) {cs : List Bytes} (hcs : ∀ c ∈ cs, (47 : UInt8) ∉ c) {k : ℕ}
    (hk : k ≤ cs.length) : dirname^[k] (base ++ cs.flatMap (47 :: ·)) =
      base ++ (cs.take (cs.length - k)).flatMap (47 :: ·) := by
  induction k generalizing cs with
  | zero => simp
  | succ k ih =>
    rcases List.eq_nil_or_concat cs with rfl | ⟨init, c, rfl⟩
    · cases hk
    · rw [List.concat_eq_append] at *
      have hc : dirname (base ++ (init ++ [c]).flatMap (47 :: ·)) =
          base ++ init.flatMap (47 :: ·) := by
        rw [List.flatMap_append, ← List.append_assoc]
        simpa using dirname_append (base ++ init.flatMap (47 :: ·)) (hcs c (by simp))
      rw [List.length_append, List.length_singleton] at hk
      rw [Function.iterate_succ_apply, hc,
        ih (fun d hd => hcs d (List.mem_append_left [c] hd)) (by omega), List.length_append,
        List.length_singleton, Nat.add_sub_add_right, List.take_append_of_le_length (by omega)]

/-! ### The numbers of a text -/

theorem scanInt_digits {ds : Bytes} (hne : ds ≠ []) (hds : ∀ c ∈ ds, isDigit c = true) {c : UInt8}
    (hc : isDigit c = false) (rest : Bytes) :
    scanInt (ds ++ c :: rest) = some ((digitsVal ds : ℤ), c :: rest) := by
  obtain ⟨hdrop, hsign⟩ := scanSign_digits hne hds (c :: rest)
  obtain ⟨htake, hrest⟩ := takeWhile_digits hds hc rest
  simp only [scanInt, hdrop, hsign, htake, hrest, if_neg hne]
  rfl

theorem sscanf_number {w n : ℕ} (hn : n < 10 ^ (w + 1)) {c : UInt8} (hc : isDigit c = false)
    (format : List Conversion) (rest : Bytes) :
    sscanf (.d :: format) (fixedDec (w + 1) n ++ c :: rest) =
      (n : ℤ) :: sscanf format (c :: rest) := by
  have hne : fixedDec (w + 1) n ≠ [] := by simp [fixedDec]
  rw [sscanf, scanInt_digits hne (fixedDec_digits _ _) hc, digitsVal_fixedDec hn]

theorem sscanf_lit (c : UInt8) (format : List Conversion) (s : Bytes) :
    sscanf (.lit c :: format) (c :: s) = sscanf format s := by
  rw [sscanf, if_pos rfl]

theorem sscanf_noNumber {format : List Conversion} (h : .d ∉ format) (s : Bytes) :
    sscanf format s = [] := by
  fun_induction sscanf format s <;> simp_all

theorem sscanf_blank (format : List Conversion) (s : Bytes) :
    sscanf (.blank :: .d :: format) (32 :: s) = sscanf (.d :: format) s := by
  have hspace : isSpace 32 = true := by decide
  simp only [sscanf, scanInt, List.dropWhile_cons_of_pos hspace, List.dropWhile_idempotent]

/-- A buffer of 64 zeros to which a text is copied. -/
theorem text_memcpy_zeros {s : Bytes} (hs : (0 : UInt8) ∉ s) (hlen : s.length < 64) :
    text (memcpy (zeros 64) 0 s) = s := by
  obtain ⟨n, hn⟩ := Nat.exists_eq_add_of_lt hlen
  rw [memcpy_zeros, hn, Nat.add_assoc, Nat.add_sub_cancel_left, zeros, List.replicate_succ,
    text_append_nul hs]

/-- The components of a date that name its directory, with the year as the server has it. -/
def dateComponents (tm : Tm) : List Bytes :=
  [fixedDec 4 tm.year.toNat, fixedDec 2 tm.mon.toNat, fixedDec 2 tm.mday.toNat,
    fixedDec 2 tm.hour.toNat, fixedDec 2 tm.min.toNat]

/-- The directory above the dates. -/
def LcsMysqlInfo.base (info : LcsMysqlInfo) : Bytes :=
  info.path.bytes ++ 47 :: (info.server.bytes ++ 47 :: info.db.bytes)

/-- The numbers of a valid text. -/
theorem lcsGetDate_text (date : DateTime) :
    lcsGetDate (memcpy (zeros 64) 0 date.text) =
      ⟨UInt16.ofNat date.tm.year.toNat, UInt8.ofNat date.tm.mon.toNat,
        UInt8.ofNat date.tm.mday.toNat, UInt8.ofNat date.tm.hour.toNat,
        UInt8.ofNat date.tm.min.toNat⟩ := by
  obtain ⟨tm, ⟨hmon, hmday, hhour, hmin, _⟩, hyear⟩ := date
  have hmdays := daysBeforeMonth_step tm.year tm.mon
  have hvs : sscanf dateDirFormat (dateText tm) = [(tm.year.toNat : ℤ), (tm.mon.toNat : ℤ),
      (tm.mday.toNat : ℤ), (tm.hour.toNat : ℤ), (tm.min.toNat : ℤ)] := by
    have hdash : isDigit 45 = false := by decide
    have hblank : isDigit 32 = false := by decide
    have hcolon : isDigit 58 = false := by decide
    rw [dateDirFormat, dateText, sscanf_number (by omega) hdash, sscanf_lit,
      sscanf_number (by omega) hdash, sscanf_lit, sscanf_number (by omega) hblank, sscanf_blank,
      sscanf_number (by omega) hcolon, sscanf_lit, sscanf_number (by omega) hcolon,
      sscanf_noNumber (by decide)]
  rw [DateTime.text, lcsGetDate, text_memcpy_zeros (dateText_noNul tm) (by simp), hvs]
  simp only [List.getD_cons_zero, List.getD_cons_succ, LcsDateDir.mk.injEq]
  refine ⟨?_, ?_, ?_, ?_, ?_⟩ <;> congr 1 <;> omega

theorem lcsCreateSubdir_text (info : LcsMysqlInfo) (date : DateTime) :
    lcsCreateSubdir info date.text = info.base ++
      (padLeft 4 32 (natDec date.tm.year.toNat) ::
        ((dateComponents date.tm).tail ++ [[]])).flatMap (47 :: ·) := by
  rw [lcsCreateSubdir, show text date.text = date.text from text_of_noNul (dateText_noNul date.tm),
    lcsGetDate_text]
  obtain ⟨tm, ⟨hmon, hmday, hhour, hmin, _⟩, hyear⟩ := date
  have hmdays := daysBeforeMonth_step tm.year tm.mon
  have hbyte : ∀ n : ℕ, n < 100 → padLeft 2 48 (natDec (UInt8.ofNat n).toNat) = fixedDec 2 n := by
    intro n hn
    rw [UInt8.toNat_ofNat', Nat.mod_eq_of_lt (by omega), padLeft_zeros (by omega)]
  have hword : (UInt16.ofNat tm.year.toNat).toNat = tm.year.toNat := by
    rw [UInt16.toNat_ofNat', Nat.mod_eq_of_lt (by omega)]
  simp only [lcsMkDir, hword, hbyte _ (by omega : tm.mon.toNat < 100),
    hbyte _ (by omega : tm.mday.toNat < 100), hbyte _ (by omega : tm.hour.toNat < 100),
    hbyte _ (by omega : tm.min.toNat < 100)]
  simp [LcsMysqlInfo.base, dateComponents]

/-! ### The edited text -/

theorem replaceSeparators_append {s : Bytes} (hs : (0 : UInt8) ∉ s) (rest : Bytes) :
    replaceSeparators (s ++ 0 :: rest) =
      s.map (fun c => if c = 45 ∨ c = 32 ∨ c = 58 then 47 else c) ++ 0 :: rest := by
  induction s with
  | nil => rfl
  | cons c s ih =>
    have hc : c ≠ 0 := fun h => hs (h ▸ List.mem_cons_self)
    rw [List.cons_append, replaceSeparators, if_neg hc, ih fun h => hs (List.mem_cons_of_mem c h)]
    rfl

/-- The text with its separators replaced. -/
theorem dateText_replaced (tm : Tm) :
    (dateText tm).map (fun c => if c = 45 ∨ c = 32 ∨ c = 58 then 47 else c) =
      fixedDec 4 tm.year.toNat ++ 47 :: (fixedDec 2 tm.mon.toNat ++ 47 ::
        (fixedDec 2 tm.mday.toNat ++ 47 :: (fixedDec 2 tm.hour.toNat ++ 47 ::
          (fixedDec 2 tm.min.toNat ++ 47 :: fixedDec 2 tm.sec.toNat)))) := by
  have hfield : ∀ w n, (fixedDec w n).map (fun c => if c = 45 ∨ c = 32 ∨ c = 58 then 47 else c) =
      fixedDec w n := by
    intro w n
    refine (List.map_congr_left fun c hc => if_neg ?_).trans (List.map_id _)
    have hdigit := fixedDec_digits w n c hc
    rintro (rfl | rfl | rfl) <;> cases hdigit
  simp [dateText, hfield]

theorem modeCut_text (mode : DateMode) : modeCut mode.text = some (3 * mode.depth + 1) := by
  cases mode <;> decide

/-- A text that is cut by a NUL. -/
theorem text_set {s : Bytes} (hs : (0 : UInt8) ∉ s) {i : ℕ} (hi : i < s.length) (rest : Bytes) :
    text ((s ++ rest).set i 0) = s.take i := by
  rw [List.set_append_left _ _ hi, List.set_eq_take_append_cons_drop, if_pos hi, List.append_assoc,
    List.cons_append, text_append_nul fun h => hs (List.mem_of_mem_take h)]

/-- The date of the path is made of the components that the mode asks for. -/
theorem cut_dateText (mode : DateMode) (date : DateTime) :
    47 :: text ((replaceSeparators (memcpy (zeros 64) 0 date.text)).set (3 * mode.depth + 1) 0) =
      ((dateComponents date.tm).take mode.depth).flatMap (47 :: ·) := by
  obtain ⟨tm, hv, hyear⟩ := date
  have hlen : ((dateText tm).map fun c => if c = 45 ∨ c = 32 ∨ c = 58 then 47 else c).length =
      19 := by
    simp
  have hnul : (0 : UInt8) ∉
      (dateText tm).map fun c => if c = 45 ∨ c = 32 ∨ c = 58 then 47 else c := by
    intro h
    obtain ⟨c, hc, h0⟩ := List.mem_map.mp h
    split_ifs at h0
    · cases h0
    · exact dateText_noNul tm (h0 ▸ hc)
  have hbuf : memcpy (zeros 64) 0 (dateText tm) = dateText tm ++ 0 :: zeros 44 := by
    rw [memcpy_zeros, dateText_length]
    rfl
  have hdepth : mode.depth ≤ 5 := by cases mode <;> decide
  rw [DateTime.text, hbuf, replaceSeparators_append (dateText_noNul tm), text_set hnul (by omega),
    dateText_replaced]
  cases mode <;> simp [DateMode.depth, dateComponents, List.take_append]

/-- The path of a request for a mode that names a component. -/
theorem lcsWhsGetPath_text {rootpath : CStr 1024} {p : LcsWhsRequestData} {info : LcsMysqlInfo}
    (hroot : rootpath.bytes = info.path.bytes) (hserver : p.dbserver.bytes = info.server.bytes)
    (hdb : p.dbname.bytes = info.db.bytes) {date : DateTime} (hdate : p.datefrom.bytes = date.text)
    {mode : DateMode} (hmode : p.mode.bytes = mode.text) :
    lcsWhsGetPath rootpath p = some (info.base ++
      ((dateComponents date.tm).take mode.depth).flatMap (47 :: ·) ++
        47 :: (p.analysis.bytes ++ analysisSuffix)) := by
  have hcut := cut_dateText mode date
  have hlen : (((dateComponents date.tm).take mode.depth).flatMap (47 :: ·)).length ≤ 17 := by
    cases mode <;> simp [DateMode.depth, dateComponents]
  have heq : info.path.bytes ++ 47 :: (info.server.bytes ++ 47 :: (info.db.bytes ++ 47 ::
      (text ((replaceSeparators (memcpy (zeros 64) 0 date.text)).set (3 * mode.depth + 1) 0) ++
        47 :: (p.analysis.bytes ++ analysisSuffix)))) =
      info.base ++ ((dateComponents date.tm).take mode.depth).flatMap (47 :: ·) ++
        47 :: (p.analysis.bytes ++ analysisSuffix) := by
    rw [← hcut]
    simp [LcsMysqlInfo.base]
  have hfits : (info.base ++ ((dateComponents date.tm).take mode.depth).flatMap (47 :: ·) ++
      47 :: (p.analysis.bytes ++ analysisSuffix)).length < 1024 := by
    have hpath := info.path.lt
    have hsrv := info.server.lt
    have hname := info.db.lt
    have hana := p.analysis.lt
    simp only [LcsMysqlInfo.base, analysisSuffix, List.length_append, List.length_cons,
      List.length_nil]
    omega
  simp only [lcsWhsGetPath, hroot, hserver, hdb, hdate, hmode, modeCut_text]
  rw [heq, if_pos hfits]

theorem cutAfter_text (info : LcsMysqlInfo) (date : DateTime) (mode : DateMode) :
    cutAfter mode (lcsCreateSubdir info date.text) = info.base ++
      ((padLeft 4 32 (natDec date.tm.year.toNat) :: (dateComponents date.tm).tail).take
        mode.depth).flatMap (47 :: ·) := by
  have hdigits : ∀ {s : Bytes}, (∀ c ∈ s, isDigit c = true) → (47 : UInt8) ∉ s := fun h hs => by
    cases h 47 hs
  have hyear : (47 : UInt8) ∉ padLeft 4 32 (natDec date.tm.year.toNat) := by
    intro h
    rcases List.mem_append.mp h with h | h
    · cases List.eq_of_mem_replicate h
    · exact hdigits (natDec_spec _).2.1 h
  rw [cutAfter, lcsCreateSubdir_text, dirname_iterate]
  · cases mode <;> simp [DateMode.depth, dateComponents]
  · simp [dateComponents, hyear, hdigits (fixedDec_digits _ _)]
  · simp [dateComponents]

/-! ### Agreement -/

/-- The server looks for the file of a date in the collector's directory exactly in the years from
1000 on, an earlier one being filled with zeros by the one and with blanks by the other; the
directory ends at the last slash where the name of the analysis has none. -/
theorem directories_agree_iff (rootpath : CStr 1024) (p : LcsWhsRequestData) (info : LcsMysqlInfo)
    (hroot : rootpath.bytes = info.path.bytes) (hserver : p.dbserver.bytes = info.server.bytes)
    (hdb : p.dbname.bytes = info.db.bytes) (date : DateTime) (hdate : p.datefrom.bytes = date.text)
    (mode : DateMode) (hmode : p.mode.bytes = mode.text) :
    let dir := cutAfter mode (lcsCreateSubdir info date.text)
    (lcsWhsGetPath rootpath p = some (dir ++ 47 :: (p.analysis.bytes ++ analysisSuffix)) ↔
      1000 ≤ date.tm.year) ∧
    ((lcsWhsGetPath rootpath p).map dirname = some dir ↔
      1000 ≤ date.tm.year ∧ (47 : UInt8) ∉ p.analysis.bytes) := by
  dsimp only
  rw [lcsWhsGetPath_text hroot hserver hdb hdate hmode, cutAfter_text, Option.map_some,
    Option.some_inj, Option.some_inj]
  obtain ⟨tm, hv, hyear⟩ := date
  obtain ⟨k, hk⟩ : ∃ k, mode.depth = k + 1 := by cases mode <;> exact ⟨_, rfl⟩
  have hsame : fixedDec 4 tm.year.toNat = padLeft 4 32 (natDec tm.year.toNat) ↔ 1000 ≤ tm.year := by
    rw [eq_comm, padLeft_blanks (by omega)]
    omega
  have hlen : (fixedDec 4 tm.year.toNat).length = (padLeft 4 32 (natDec tm.year.toNat)).length := by
    have hle := natDec_length_le (n := tm.year.toNat) (m := 3) (by omega)
    rw [fixedDec_length, padLeft, List.length_append, List.length_replicate]
    omega
  rw [hk, dateComponents, List.tail_cons, List.take_succ_cons, List.take_succ_cons,
    List.flatMap_cons, List.flatMap_cons]
  generalize ([fixedDec 2 tm.mon.toNat, fixedDec 2 tm.mday.toNat, fixedDec 2 tm.hour.toNat,
    fixedDec 2 tm.min.toNat].take k).flatMap (47 :: ·) = rest
  have hdirs : info.base ++ (47 :: fixedDec 4 tm.year.toNat ++ rest) =
      info.base ++ (47 :: padLeft 4 32 (natDec tm.year.toNat) ++ rest) ↔ 1000 ≤ tm.year := by
    rw [← hsame, List.append_cancel_left_eq, List.append_cancel_right_eq, List.cons_inj_right]
  refine ⟨by rw [List.append_cancel_right_eq, hdirs], ?_⟩
  by_cases hslash : (47 : UInt8) ∈ p.analysis.bytes
  · refine iff_of_false (fun h => ?_) fun h => h.2 hslash
    have hlonger := length_dirname_append (info.base ++ (47 :: fixedDec 4 tm.year.toNat ++ rest))
      (List.mem_append_left analysisSuffix hslash)
    rw [h] at hlonger
    simp only [List.length_append, List.length_cons, hlen, lt_irrefl] at hlonger
  · have hname : (47 : UInt8) ∉ p.analysis.bytes ++ analysisSuffix := by
      simp [hslash, analysisSuffix]
    rw [dirname_append _ hname, hdirs]
    exact (and_iff_left hslash).symm

/-- A name of one byte. -/
def oneByte {n : ℕ} (hn : 1 < n) {c : UInt8} (hc : c ≠ 0) : CStr n :=
  ⟨[c], hn, fun h => hc (List.mem_singleton.mp h).symm⟩

/-- The server `s`, the database `d` and the root `p`. -/
def sampleInfo : LcsMysqlInfo :=
  ⟨oneByte (c := 115) (Nat.succ_lt_succ (Nat.succ_pos 126)) (by decide),
    oneByte (c := 100) (Nat.succ_lt_succ (Nat.succ_pos 62)) (by decide),
    oneByte (c := 112) (Nat.succ_lt_succ (Nat.succ_pos 126)) (by decide)⟩

theorem dateTime_length (date : DateTime) : date.text.length < 32 := by
  rw [DateTime.text, dateText_length]
  omega

/-- A request for a date, with the names of `sampleInfo`. -/
def sampleRequest (date : DateTime) (mode : CStr 16) : LcsWhsRequestData where
  dbserver := ⟨[115], Nat.succ_lt_succ (Nat.succ_pos 30), sampleInfo.server.noNul⟩
  dbname := sampleInfo.db
  datefrom := ⟨date.text, dateTime_length date, dateText_noNul date.tm⟩
  dateto := zeroRequest.dateto
  analysis := ⟨[100], Nat.succ_lt_succ (Nat.succ_pos 30), sampleInfo.db.noNul⟩
  mode := mode

/-- 29 October 2017, 13:05:59. -/
def autumnDay : DateTime :=
  ⟨⟨2017, 10, 29, 13, 5, 59⟩, ⟨by decide, by decide, by decide, by decide, by decide⟩, by decide⟩

/-- The last second of the year 999. -/
def earlyYear : DateTime :=
  ⟨⟨999, 12, 31, 23, 59, 59⟩, ⟨by decide, by decide, by decide, by decide, by decide⟩, by decide⟩

/-- The root `p` of the server. -/
def sampleRoot : CStr 1024 :=
  ⟨[112], Nat.succ_lt_succ (Nat.succ_pos 1022), sampleInfo.path.noNul⟩

theorem directories_agree_sample :
    (lcsWhsGetPath sampleRoot (sampleRequest autumnDay dayMode)).map dirname =
      some (cutAfter .day (lcsCreateSubdir sampleInfo autumnDay.text)) :=
  (directories_agree_iff sampleRoot (sampleRequest autumnDay dayMode) sampleInfo rfl rfl rfl
    autumnDay rfl .day rfl).2.mpr ⟨by decide, by decide⟩

/-- `year`. -/
def yearMode : CStr 16 := ⟨[121, 101, 97, 114], by decide, by decide⟩

/-- For the year 999 the server looks in `p/s/d/0999`, and the collector's directory is
`p/s/d/ 999`. -/
theorem early_year_differs :
    (lcsWhsGetPath sampleRoot (sampleRequest earlyYear yearMode)).map dirname ≠
      some (cutAfter .year (lcsCreateSubdir sampleInfo earlyYear.text)) ∧
    (lcsWhsGetPath sampleRoot (sampleRequest earlyYear yearMode)).map dirname =
      some [112, 47, 115, 47, 100, 47, 48, 57, 57, 57] ∧
    cutAfter .year (lcsCreateSubdir sampleInfo earlyYear.text) =
      [112, 47, 115, 47, 100, 47, 32, 57, 57, 57] := by
  have hserver : (lcsWhsGetPath sampleRoot (sampleRequest earlyYear yearMode)).map dirname =
      some [112, 47, 115, 47, 100, 47, 48, 57, 57, 57] := by
    rw [@lcsWhsGetPath_text sampleRoot (sampleRequest earlyYear yearMode) sampleInfo rfl rfl rfl
      earlyYear rfl .year rfl]
    decide
  have hcollector : cutAfter .year (lcsCreateSubdir sampleInfo earlyYear.text) =
      [112, 47, 115, 47, 100, 47, 32, 57, 57, 57] := by
    have hyear : natDec 999 = [57, 57, 57] := by simp [natDec]
    rw [cutAfter_text]
    simp [earlyYear, hyear]
    decide
  refine ⟨?_, hserver, hcollector⟩
  rw [hserver, hcollector]
  decide

end MemoryLeak.Cluster.Texts
