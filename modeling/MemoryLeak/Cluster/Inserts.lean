import MemoryLeak.Cluster.ExportImport
import MemoryLeak.Loops

/-!
# The insert program and its database

The loops of `lcs_insert_general` and `lcs_insert_context`, which end by `feof`, and the one error
variable of `lcs_fetch_file`. The calls on the database have any return codes; a statement that is
not finalized keeps the connection from being closed.
-/
namespace MemoryLeak.Cluster.Inserts
open MemoryLeak.CBytes MemoryLeak.CText MemoryLeak.TextFile MemoryLeak.Loops

/-! ### Rows -/

/-- The return codes of the calls on a statement, for each row and, for `sqlite3_bind_text`, each
parameter. -/
structure StmtCodes where
  bind : ℕ → ℕ → ℤ
  step : ℕ → ℤ
  clear : ℕ → ℤ
  reset : ℕ → ℤ

/-- A call on the statement and its return code. -/
inductive StmtCall where
  | bind (code : ℤ)
  | step (code : ℤ)
  | clear (code : ℤ)
  | reset (code : ℤ)
deriving DecidableEq

/-- A code other than 0 and `SQLITE_DONE`. -/
def isFailure (code : ℤ) : Bool := code ≠ 0 && code ≠ 101

def StmtCall.failed : StmtCall → Bool
  | .bind code => code ≠ 0
  | .step code | .clear code | .reset code => isFailure code

/-- `__LINE__` where an insert function sets its error; `bound` stands behind the loop over the
tokens. -/
structure InsertLines where
  bind : ℤ
  bound : Option ℤ
  step : ℤ
  clear : ℤ
  reset : ℤ

/-- The state of an insert function: the file, `*err`, the tokens bound at each `sqlite3_step`, and
the calls made. -/
structure InsertState where
  fp : TextStream
  err : ℤ
  rows : List (List Bytes)
  calls : List StmtCall

/-- The loop over the tokens of row `r`, from parameter `i` on. -/
def bindTokens (lines : InsertLines) (q : StmtCodes) (r : ℕ) :
    ℕ → List Bytes → ℤ × List StmtCall → ℤ × List StmtCall
  | _, [], s => s
  | i, _ :: pchs, (_, calls) =>
    let err := q.bind r i
    if err ≠ 0 then (lines.bind, calls ++ [.bind err])
    else bindTokens lines q r (i + 1) pchs (err, calls ++ [.bind err])

/-- A row: its end, and whether the loop goes on. -/
def insertRow (lines : InsertLines) (q : StmtCodes) (s : InsertState) (pchs : List Bytes) :
    InsertState × Bool :=
  let r := s.rows.length
  let (err, calls) := bindTokens lines q r 1 pchs (s.err, s.calls)
  if err ≠ 0 then ({ s with err := lines.bound.getD err, calls := calls }, false)
  else
    let rows := s.rows ++ [pchs]
    let calls := calls ++ [.step (q.step r)]
    if isFailure (q.step r) then (⟨s.fp, lines.step, rows, calls⟩, false)
    else
      let calls := calls ++ [.clear (q.clear r)]
      if isFailure (q.clear r) then (⟨s.fp, lines.clear, rows, calls⟩, false)
      else
        let calls := calls ++ [.reset (q.reset r)]
        if isFailure (q.reset r) then (⟨s.fp, lines.reset, rows, calls⟩, false)
        else (⟨s.fp, q.reset r, rows, calls⟩, true)

/-- A turn of `while (!feof(fp))`; `size` is the size that `fgets` gets. -/
def insertTurn (lines : InsertLines) (q : StmtCodes) (size : ℤ) (s : InsertState) :
    Option (Turn InsertState) :=
  if s.fp.eof then some (.leave s)
  else
    let (buffer, fp) := s.fp.fgets size
    let s := { s with fp := fp }
    if byteAt buffer 0 = 0 then some (.again s)
    else
      match insertRow lines q s (strtoks isColumnEnd buffer) with
      | (s, true) => some (.again s)
      | (s, false) => some (.leave s)

def generalLines : InsertLines := ⟨227, some 235, 244, 254, 264⟩

def contextLines : InsertLines := ⟨431, none, 447, 457, 467⟩

def lcsInsertGeneral (q : StmtCodes) (file : Bytes) (fuel : ℕ) : Option InsertState :=
  whileLoop (insertTurn generalLines q 8192) fuel ⟨⟨file, false⟩, 0, [], []⟩

/-- The buffer has the size of the file, kept in an `unsigned int`, and one byte more; `fgets` takes
the size as an `int`. -/
def lcsInsertContext (malloc : Bool) (q : StmtCodes) (file : Bytes) (fuel : ℕ) :
    Option InsertState :=
  if malloc then
    whileLoop (insertTurn contextLines q (toInt file.length)) fuel ⟨⟨file, false⟩, 0, [], []⟩
  else some ⟨⟨file, false⟩, 410, [], []⟩

/-! ### One row for each line -/

/-- Binding and stepping succeed. -/
structure StmtCodes.Succeeds (q : StmtCodes) : Prop where
  bind : ∀ r i, q.bind r i = 0
  step : ∀ r, q.step r = 101
  clear : ∀ r, q.clear r = 0
  reset : ∀ r, q.reset r = 0

/-- The tokens of a line. -/
def tokens (l : Bytes) : List Bytes := strtoks isColumnEnd l

/-- The function ends, and the statement was executed once for each line, with its tokens. -/
def OneRowPerLine (insert : ℕ → Option InsertState) (file : Bytes) : Prop :=
  ∃ n s, (∀ fuel, n < fuel → insert fuel = some s) ∧ s.rows = (lines file).map tokens

section Succeeds

variable (marks : InsertLines) {q : StmtCodes}

theorem bindTokens_succeeds (hq : q.Succeeds) (r i : ℕ) (pchs : List Bytes)
    (calls : List StmtCall) : (bindTokens marks q r i pchs (0, calls)).1 = 0 := by
  induction pchs generalizing i calls with
  | nil => rfl
  | cons pch pchs ih =>
    rw [bindTokens, hq.bind, if_neg (not_not.mpr rfl)]
    exact ih (i + 1) _

theorem insertRow_succeeds (hq : q.Succeeds) {s : InsertState} (hs : s.err = 0)
    (pchs : List Bytes) :
    ∃ calls, insertRow marks q s pchs = (⟨s.fp, 0, s.rows ++ [pchs], calls⟩, true) := by
  have hbind := bindTokens_succeeds marks hq s.rows.length 1 pchs s.calls
  have hdone : isFailure 101 = false := rfl
  have hok : isFailure 0 = false := rfl
  cases hcalls : bindTokens marks q s.rows.length 1 pchs (0, s.calls) with
  | mk err calls =>
    rw [hcalls] at hbind
    simp only at hbind
    subst hbind
    simp only [insertRow, hs, hcalls, ne_eq, not_true_eq_false, if_false, hq.step, hq.clear,
      hq.reset, hdone, hok, Bool.false_eq_true]
    exact ⟨_, rfl⟩

/-- One call of `fgets` before the end of the file is known. -/
theorem fgets_stream {size : ℕ} (hsize : 1 < size) (rest : Bytes) :
    TextStream.fgets size ⟨rest, false⟩ =
      ((readPiece (size - 1) rest).1,
        ⟨(readPiece (size - 1) rest).2.1, (readPiece (size - 1) rest).2.2⟩) := by
  have hnot : ¬ (size : ℤ) ≤ 1 := by omega
  have hroom : ((size : ℤ) - 1).toNat = size - 1 := by omega
  simp only [TextStream.fgets, if_neg hnot, hroom]

/-- What the loop has done, and what it still has to do. -/
structure InsertInv (size : ℕ) (file : Bytes) (s : InsertState) : Prop where
  err : s.err = 0
  noNul : (0 : UInt8) ∉ s.fp.rest
  eof : s.fp.eof = true → s.fp.rest = []
  rows : s.rows ++ (fgetsAll size s.fp.rest).map tokens = (fgetsAll size file).map tokens

theorem fgetsAll_cons {size : ℕ} (hsize : 1 < size) {rest : Bytes} (h : rest ≠ []) :
    fgetsAll size rest = (readPiece (size - 1) rest).1 ::
      fgetsAll size (readPiece (size - 1) rest).2.1 :=
  piecesFrom_readPiece (show ([] : Bytes).length < size - 1 by rw [List.length_nil]; omega) rest h

/-- A turn reads a piece and inserts it, or finds the end of the file. -/
theorem insertTurn_again (hq : q.Succeeds) {size : ℕ} (hsize : 1 < size) {file : Bytes}
    {s : InsertState} (hs : InsertInv size file s) (heof : s.fp.eof = false) :
    ∃ s', insertTurn marks q size s = some (.again s') ∧ InsertInv size file s' ∧
      s'.fp.rest.length + (if s'.fp.eof then 0 else 1) <
        s.fp.rest.length + (if s.fp.eof then 0 else 1) := by
  obtain ⟨⟨rest, eof⟩, err, rows, calls⟩ := s
  obtain rfl : eof = false := heof
  obtain ⟨herr, hnul, -, hrows⟩ := hs
  obtain rfl : err = 0 := herr
  simp only at hnul hrows
  have hfgets := fgets_stream hsize rest
  by_cases hrest : rest = []
  · obtain ⟨m, hm⟩ : ∃ m, size - 1 = m + 1 := ⟨size - 2, by omega⟩
    subst hrest
    rw [hm, readPiece] at hfgets
    have hempty : byteAt ([] : Bytes) 0 = 0 := rfl
    refine ⟨⟨⟨[], true⟩, 0, rows, calls⟩, ?_, ⟨rfl, hnul, fun _ => rfl, hrows⟩, ?_⟩
    · simp only [insertTurn, Bool.false_eq_true, if_false, hfgets, hempty, if_true]
    · simp
  · obtain ⟨hne, hless⟩ := readPiece_ne_nil (show 0 < size - 1 by omega) hrest
    have hpieces := fgetsAll_cons hsize hrest
    have happend := readPiece_append (size - 1) rest
    have heof := @readPiece_eof (size - 1) rest
    generalize readPiece (size - 1) rest = r at *
    obtain ⟨p, rest', eof'⟩ := r
    dsimp only at *
    have hmem : ∀ c, c ∈ p ∨ c ∈ rest' → c ∈ rest := fun c hc =>
      happend ▸ List.mem_append.mpr hc
    have hfirst : byteAt p 0 ≠ 0 := fun h0 =>
      hne ((byteAt_zero_iff fun h => hnul (hmem 0 (Or.inl h))).mp h0)
    obtain ⟨calls', hrow⟩ := insertRow_succeeds marks hq
      (show (⟨⟨rest', eof'⟩, 0, rows, calls⟩ : InsertState).err = 0 from rfl) (tokens p)
    refine ⟨⟨⟨rest', eof'⟩, 0, rows ++ [tokens p], calls'⟩, ?_, ⟨rfl, ?_, heof, ?_⟩, ?_⟩
    · simp only [insertTurn, Bool.false_eq_true, if_false, hfgets, if_neg hfirst]
      rw [← tokens, hrow]
    · exact fun h => hnul (hmem 0 (Or.inr h))
    · rw [← hrows, hpieces, List.map_cons, List.append_assoc, List.singleton_append]
    · have hflag : (if eof' = true then 0 else 1) ≤ 1 := by
        split
        · exact Nat.zero_le 1
        · exact le_rfl
      exact Nat.add_lt_add_of_lt_of_le hless hflag

/-- With room for a byte the loop ends, and every piece was inserted. -/
theorem insertLoop_rows (hq : q.Succeeds) {size : ℕ} (hsize : 1 < size) {file : Bytes}
    (hfile : (0 : UInt8) ∉ file) :
    ∃ s, (∀ fuel, file.length + 1 < fuel →
        whileLoop (insertTurn marks q size) fuel ⟨⟨file, false⟩, 0, [], []⟩ = some s) ∧
      s.rows = (fgetsAll size file).map tokens := by
  obtain ⟨s, hrun, hrows⟩ := @whileLoop_spec _ (fun _ : ℕ => insertTurn marks q size)
    (InsertInv size file) (fun s => s.rows = (fgetsAll size file).map tokens)
    (fun s => s.fp.rest.length + (if s.fp.eof then 0 else 1)) (file.length + 1)
    (fun s hs _ => by
      cases heof : s.fp.eof with
      | true =>
        have hnil : fgetsAll size s.fp.rest = [] := by
          rw [hs.eof heof]
          rfl
        have hrows := hs.rows
        rw [hnil, List.map_nil, List.append_nil] at hrows
        exact Or.inr ⟨s, fun _ _ => by rw [insertTurn, heof]; rfl, hrows⟩
      | false =>
        obtain ⟨s', hturn, hs', hless⟩ := insertTurn_again marks hq hsize hs heof
        rw [heof] at hless
        exact Or.inl ⟨s', fun _ _ => hturn, hs', hless⟩)
    ⟨⟨file, false⟩, 0, [], []⟩
    ⟨rfl, hfile, fun h => absurd h Bool.false_ne_true, rfl⟩ le_rfl
  exact ⟨s, fun fuel hfuel => hrun _ fuel (Nat.lt_succ_self _) hfuel, hrows⟩

/-- Without, it does not. -/
theorem insertLoop_stuck (q : StmtCodes) {size : ℤ} (hsize : size ≤ 1) (file : Bytes) (fuel : ℕ) :
    whileLoop (insertTurn marks q size) fuel ⟨⟨file, false⟩, 0, [], []⟩ = none := by
  refine whileLoop_stuck ?_ fuel
  have hempty : byteAt ([] : Bytes) 0 = 0 := rfl
  simp only [insertTurn, TextStream.fgets, if_pos hsize, hempty, Bool.false_eq_true, if_false,
    if_true]

theorem oneRowPerLine_iff (hq : q.Succeeds) (size : ℤ) {file : Bytes} (hfile : (0 : UInt8) ∉ file) :
    OneRowPerLine
        (fun fuel => whileLoop (insertTurn marks q size) fuel ⟨⟨file, false⟩, 0, [], []⟩) file ↔
      1 < size ∧ ∀ l ∈ lines file, (l.length : ℤ) < size := by
  by_cases hsize : 1 < size
  · obtain ⟨n, rfl⟩ : ∃ n : ℕ, size = n := ⟨size.toNat, by omega⟩
    have hn : 1 < n := by omega
    obtain ⟨s, hrun, hrows⟩ := insertLoop_rows marks hq hn hfile
    obtain ⟨-, hcount, heq⟩ := fgetsAll_lines_iff hn file
    have hfits : (∀ l ∈ lines file, (l.length : ℤ) < n) ↔ ∀ l ∈ lines file, l.length < n :=
      forall₂_congr fun l _ => Int.ofNat_lt
    rw [and_iff_right hsize, hfits]
    constructor
    · rintro ⟨m, s', hrun', hrows'⟩
      have hsame := (hrun' (max m (file.length + 1) + 1) (by omega)).symm.trans
        (hrun (max m (file.length + 1) + 1) (by omega))
      obtain rfl := Option.some.inj hsame
      have hlen := congrArg List.length (hrows.symm.trans hrows')
      rw [List.length_map, List.length_map] at hlen
      exact hcount.mp hlen
    · intro h
      exact ⟨_, s, hrun, by rw [hrows, heq h]⟩
  · refine iff_of_false ?_ (fun h => absurd h.1 hsize)
    rintro ⟨m, s, hrun, -⟩
    have hstuck := insertLoop_stuck marks q (Int.not_lt.mp hsize) file (m + 1)
    cases hstuck.symm.trans (hrun (m + 1) (Nat.lt_succ_self m))

end Succeeds

/-- The general function inserts each line of less than 8192 bytes once. The one for contexts does
so exactly when its file is not empty and no line fills the size that `fgets` gets. -/
theorem one_row_per_line_iff {q : StmtCodes} (hq : q.Succeeds) {file : Bytes}
    (hfile : (0 : UInt8) ∉ file) :
    ((∀ l ∈ lines file, l.length < 8192) → OneRowPerLine (lcsInsertGeneral q file) file) ∧
      (OneRowPerLine (lcsInsertContext true q file) file ↔
        file ≠ [] ∧ ∀ l ∈ lines file, (l.length : ℤ) < toInt file.length) := by
  constructor
  · intro h
    refine (oneRowPerLine_iff generalLines hq 8192 hfile).mpr ⟨by omega, fun l hl => ?_⟩
    have := h l hl
    omega
  · refine (oneRowPerLine_iff contextLines hq (toInt file.length) hfile).trans
      (and_congr_left fun hfits => ?_)
    constructor
    · rintro hsize rfl
      have hzero : toInt ([] : Bytes).length = 0 := rfl
      omega
    · intro hne
      obtain ⟨l, hl⟩ := List.exists_mem_of_ne_nil _ (mt lines_eq_nil_iff.mp hne)
      have hpos := List.length_pos_of_ne_nil (lines_ne_nil hl)
      have := hfits l hl
      omega

/-- SQLite when nothing goes wrong. -/
def okCodes : StmtCodes := ⟨fun _ _ => 0, fun _ => 101, fun _ => 0, fun _ => 0⟩

theorem okCodes_succeeds : okCodes.Succeeds :=
  ⟨fun _ _ => rfl, fun _ => rfl, fun _ => rfl, fun _ => rfl⟩

/-- Two lines, the second one without a newline. -/
theorem one_row_per_line_iff_sample :
    ((∀ l ∈ lines [97, 9, 98, 10, 99], l.length < 8192) →
        OneRowPerLine (lcsInsertGeneral okCodes [97, 9, 98, 10, 99]) [97, 9, 98, 10, 99]) ∧
      (OneRowPerLine (lcsInsertContext true okCodes [97, 9, 98, 10, 99]) [97, 9, 98, 10, 99] ↔
        ([97, 9, 98, 10, 99] : Bytes) ≠ [] ∧
          ∀ l ∈ lines [97, 9, 98, 10, 99], (l.length : ℤ) < toInt 5) :=
  one_row_per_line_iff okCodes_succeeds (by decide)

/-- The only line of a file is read in two pieces. -/
theorem single_line_twice :
    ¬ ∀ (q : StmtCodes) (file : Bytes), q.Succeeds → (0 : UInt8) ∉ file →
      (∀ l ∈ lines file, l.length < file.length + 1) →
        OneRowPerLine (lcsInsertContext true q file) file := by
  intro h
  have hone := h okCodes [97, 10] okCodes_succeeds (by decide) (by decide)
  have hfits := ((oneRowPerLine_iff contextLines okCodes_succeeds 2 (by decide)).mp hone).2
  exact absurd (hfits [97, 10] (by decide)) (by decide)

/-- The rows of the general function are those of the pieces it reads. -/
theorem lcsInsertGeneral_refines {q : StmtCodes} (hq : q.Succeeds) {file : Bytes}
    (hfile : (0 : UInt8) ∉ file) {params : ℕ}
    (hparams : ∀ b ∈ fgetsAll 8192 file, (strtoks isColumnEnd b).length ≤ params) :
    ∃ n s, (∀ fuel, n < fuel → lcsInsertGeneral q file fuel = some s) ∧
      Cluster.lcsInsertGeneral params file = (s.rows, false) := by
  obtain ⟨s, hrun, hrows⟩ := insertLoop_rows generalLines hq
    (show 1 < 8192 by omega) hfile
  exact ⟨_, s, hrun, (insertRows_eq_iff fun b hb => fgetsAll_byteAt hfile hb).mpr ⟨hparams, hrows⟩⟩

/-! ### The error of an import -/

/-- What the calls for one table come to. `statement` says whether `sqlite3_prepare_v2` gave one,
and `closeCode` is the code of `sqlite3_close` with a statement open and without. -/
structure TableCalls where
  data : Option Bytes
  openCode : ℤ
  handle : Bool
  prepareCode : ℤ
  statement : Bool
  context : Bool
  malloc : Bool
  codes : StmtCodes
  endCode : ℤ
  finalizeCode : ℤ
  closeCode : Bool → ℤ
  handle_open : openCode = 0 → handle = true
  prepare_failed : prepareCode ≠ 0 → statement = false
  close_idle : closeCode false = 0
  close_busy : closeCode true ≠ 0

/-- A call of `lcs_fetch_file` with its code. -/
inductive SqliteCall where
  | openDb (code : ℤ)
  | prepare (code : ℤ) (statement : Bool)
  | row (call : StmtCall)
  | commit (code : ℤ)
  | finalize (code : ℤ)
  | close (code : ℤ)

/-- The failures of an import; a format that gives no statement is one. -/
def SqliteCall.failed : SqliteCall → Bool
  | .openDb code => code ≠ 0
  | .prepare code statement => code ≠ 0 || !statement
  | .row call => call.failed
  | .commit code => code ≠ 0
  | .finalize _ => false
  | .close _ => false

/-- `p->fcb(arg, fp, lcs_sqlite3_gp, &stmt, &error)`. -/
def TableCalls.insert (t : TableCalls) (file : Bytes) (fuel : ℕ) : Option InsertState :=
  if t.context then lcsInsertContext t.malloc t.codes file fuel
  else lcsInsertGeneral t.codes file fuel

/-- The end of `lcs_fetch_file`, with the error so far and whether the statement is still open. -/
def TableCalls.finish (t : TableCalls) (stmtOpen : Bool) (error : ℤ) (calls : List SqliteCall) :
    ℤ × List SqliteCall :=
  if t.handle then (t.closeCode stmtOpen, calls ++ [.close (t.closeCode stmtOpen)])
  else (error, calls)

/-- `*err` afterwards, and the calls made. -/
def lcsFetchFile (fuel : ℕ) (t : TableCalls) : Option (ℤ × List SqliteCall) :=
  match t.data with
  | none => some (0, [])
  | some file =>
    if t.openCode ≠ 0 then some (t.finish false t.openCode [.openDb t.openCode])
    else
      let calls := [.openDb t.openCode, .prepare t.prepareCode t.statement]
      if t.prepareCode ≠ 0 then some (t.finish t.statement t.prepareCode calls)
      else do
        let s ← t.insert file fuel
        let calls := calls ++ s.calls.map .row
        if s.err ≠ 0 then some (t.finish t.statement s.err calls)
        else
          let calls := calls ++ [.commit t.endCode]
          if t.endCode ≠ 0 then some (t.finish t.statement 171 calls)
          else
            let calls := calls ++ [.finalize t.finalizeCode]
            some (t.finish false (if t.finalizeCode ≠ 0 then 180 else 0) calls)

/-- A table of the list, and whether its format was read. -/
structure TableEntry where
  format : Bool
  calls : TableCalls

/-- The tables fetched, and `*err` afterwards. -/
def lcsFetchClist (fuel : ℕ) : List TableEntry → ℤ → Option (List TableEntry × ℤ)
  | [], err => some ([], err)
  | p :: ps, _ =>
    if p.format then do
      let (err, _) ← lcsFetchFile fuel p.calls
      if err ≠ 0 then some ([p], err)
      else do
        let (fetched, err) ← lcsFetchClist fuel ps err
        some (p :: fetched, err)
    else some ([], 383)

/-- Opening, preparing, a row or committing failed. -/
def ImportFails (t : TableCalls) : Prop :=
  t.data.isSome = true ∧ (t.openCode ≠ 0 ∨ t.prepareCode ≠ 0 ∨ t.statement = false) ∨
    ∃ fuel r, lcsFetchFile fuel t = some r ∧ ∃ c ∈ r.2, c.failed = true

/-- `lcs_fetch_file` ends and leaves an error. -/
def Reported (t : TableCalls) : Prop :=
  ∃ n err calls, err ≠ 0 ∧ ∀ fuel, n < fuel → lcsFetchFile fuel t = some (err, calls)

/-- A table that `lcs_fetch_file` ends for without an error. -/
def Passed (p : TableEntry) : Prop :=
  p.format = true ∧ ∃ n calls, ∀ fuel, n < fuel → lcsFetchFile fuel p.calls = some (0, calls)

/-- `lcs_fetch_clist` goes no further than this table, wherever it stands, and leaves an error. -/
def StopsAt (t : TableCalls) : Prop :=
  ∀ before behind : List TableEntry, (∀ p ∈ before, Passed p) →
    ∃ n err, err ≠ 0 ∧ ∀ fuel, n < fuel →
      lcsFetchClist fuel (before ++ ⟨true, t⟩ :: behind) 0 = some (before ++ [⟨true, t⟩], err)

/-- No call has failed. -/
def Clean (calls : List StmtCall) : Prop := ∀ c ∈ calls, c.failed = false

theorem Clean.snoc {calls : List StmtCall} (h : Clean calls) {c : StmtCall}
    (hc : c.failed = false) : Clean (calls ++ [c]) := by
  intro d hd
  rcases List.mem_append.mp hd with hd | hd
  · exact h d hd
  · rw [List.mem_singleton.mp hd]
    exact hc

/-- No line number is 0. -/
structure InsertLines.Nonzero (marks : InsertLines) : Prop where
  bind : marks.bind ≠ 0
  bound : ∀ b ∈ marks.bound, b ≠ 0
  step : marks.step ≠ 0
  clear : marks.clear ≠ 0
  reset : marks.reset ≠ 0

theorem generalLines_nonzero : generalLines.Nonzero :=
  ⟨by decide, by decide, by decide, by decide, by decide⟩

theorem contextLines_nonzero : contextLines.Nonzero :=
  ⟨by decide, (fun _ hb => nomatch hb), by decide, by decide, by decide⟩

section Errors

variable {marks : InsertLines} {q : StmtCodes}

theorem bindTokens_clean (r i : ℕ) (pchs : List Bytes) {err : ℤ} {calls : List StmtCall}
    (h : Clean calls) :
    (bindTokens marks q r i pchs (err, calls)).1 = marks.bind ∨
      Clean (bindTokens marks q r i pchs (err, calls)).2 := by
  induction pchs generalizing i err calls with
  | nil => exact Or.inr h
  | cons pch pchs ih =>
    rw [bindTokens]
    by_cases hcode : q.bind r i ≠ 0
    · rw [if_pos hcode]
      exact Or.inl rfl
    · rw [if_neg hcode]
      have hok : (StmtCall.bind (q.bind r i)).failed = false := decide_eq_false hcode
      exact ih (i + 1) (h.snoc hok)

/-- A row that fails leaves an error and ends the loop; the calls of any other are clean. -/
theorem insertRow_clean (hmarks : marks.Nonzero) {s : InsertState} (h : Clean s.calls)
    (pchs : List Bytes) :
    (∃ s', insertRow marks q s pchs = (s', true) ∧ Clean s'.calls) ∨
      ∃ s', insertRow marks q s pchs = (s', false) ∧ s'.err ≠ 0 := by
  have hbind := @bindTokens_clean marks q s.rows.length 1 pchs s.err s.calls h
  obtain ⟨⟨err, calls⟩, hb⟩ : ∃ b, bindTokens marks q s.rows.length 1 pchs (s.err, s.calls) = b :=
    ⟨_, rfl⟩
  rw [hb] at hbind
  dsimp only at hbind
  simp only [insertRow, hb]
  by_cases herr : err ≠ 0
  · refine Or.inr ⟨_, by rw [if_pos herr], ?_⟩
    cases hbound : marks.bound with
    | none => exact herr
    | some b => exact hmarks.bound b hbound
  · have hcalls : Clean calls := hbind.resolve_left fun heq =>
      hmarks.bind (heq.symm.trans (not_not.mp herr))
    rw [if_neg herr]
    cases hstep : isFailure (q.step s.rows.length) with
    | true => exact Or.inr ⟨_, rfl, hmarks.step⟩
    | false =>
      have hcalls := hcalls.snoc (c := .step (q.step s.rows.length)) hstep
      cases hclear : isFailure (q.clear s.rows.length) with
      | true => exact Or.inr ⟨_, rfl, hmarks.clear⟩
      | false =>
        have hcalls := hcalls.snoc (c := .clear (q.clear s.rows.length)) hclear
        cases hreset : isFailure (q.reset s.rows.length) with
        | true => exact Or.inr ⟨_, rfl, hmarks.reset⟩
        | false =>
          exact Or.inl ⟨_, rfl, hcalls.snoc (c := .reset (q.reset s.rows.length)) hreset⟩

/-- The loop is left with an error if a call failed. -/
theorem insertLoop_failed (hmarks : marks.Nonzero) {size : ℤ} {n : ℕ} {s s' : InsertState}
    (hs : Clean s.calls) (h : whileLoop (insertTurn marks q size) n s = some s')
    (hfailed : ∃ c ∈ s'.calls, c.failed = true) : s'.err ≠ 0 := by
  have hturn : ∀ s t, Clean s.calls → insertTurn marks q size s = some t →
      (∃ s', t = .again s' ∧ Clean s'.calls) ∨
        ∃ s', t = .leave s' ∧ (Clean s'.calls ∨ s'.err ≠ 0) := by
    intro s t hs ht
    unfold insertTurn at ht
    split at ht
    · cases ht
      exact Or.inr ⟨s, rfl, Or.inl hs⟩
    · dsimp only at ht
      split at ht
      · cases ht
        exact Or.inl ⟨_, rfl, hs⟩
      · rcases insertRow_clean hmarks (s := { s with fp := (TextStream.fgets size s.fp).2 }) hs
          (strtoks isColumnEnd (TextStream.fgets size s.fp).1) with ⟨s₁, hrow, hclean⟩ |
            ⟨s₁, hrow, herr⟩
        · rw [hrow] at ht
          cases ht
          exact Or.inl ⟨s₁, rfl, hclean⟩
        · rw [hrow] at ht
          cases ht
          exact Or.inr ⟨s₁, rfl, Or.inr herr⟩
  obtain ⟨s₁, hclean, hleave⟩ := whileLoop_left (I := fun s => Clean s.calls)
    (fun s s₁ hs hagain => by
      rcases hturn s _ hs hagain with ⟨s₂, heq, hclean⟩ | ⟨s₂, heq, -⟩
      · cases heq
        exact hclean
      · cases heq) hs h
  rcases hturn s₁ _ hclean hleave with ⟨s₂, heq, -⟩ | ⟨s₂, heq, hend⟩
  · cases heq
  · cases heq
    obtain ⟨c, hc, hcf⟩ := hfailed
    refine hend.resolve_left fun hclean => ?_
    rw [hclean c hc] at hcf
    cases hcf

end Errors

section FetchFile

variable {t : TableCalls} {file : Bytes} {fuel : ℕ}

theorem insert_failed {s : InsertState} (h : t.insert file fuel = some s)
    (hfailed : ∃ c ∈ s.calls, c.failed = true) : s.err ≠ 0 := by
  have hnone : Clean ([] : List StmtCall) := fun c hc => absurd hc List.not_mem_nil
  unfold TableCalls.insert lcsInsertContext lcsInsertGeneral at h
  split_ifs at h
  · exact insertLoop_failed contextLines_nonzero hnone h hfailed
  · cases h
    obtain ⟨c, hc, -⟩ := hfailed
    cases hc
  · exact insertLoop_failed generalLines_nonzero hnone h hfailed

theorem insert_mono {s : InsertState} (h : t.insert file fuel = some s) {m : ℕ} (hm : fuel ≤ m) :
    t.insert file m = some s := by
  unfold TableCalls.insert lcsInsertContext lcsInsertGeneral at h ⊢
  split_ifs at h ⊢
  · exact whileLoop_mono h hm
  · exact h
  · exact whileLoop_mono h hm

/-- The ways in which `lcs_fetch_file` ends once the data file is open. -/
theorem lcsFetchFile_cases {r : ℤ × List SqliteCall} (hdata : t.data = some file)
    (h : lcsFetchFile fuel t = some r) :
    t.openCode ≠ 0 ∧ r = t.finish false t.openCode [.openDb t.openCode] ∨
      t.openCode = 0 ∧ (t.prepareCode ≠ 0 ∧ r = t.finish t.statement t.prepareCode
          [.openDb t.openCode, .prepare t.prepareCode t.statement] ∨
        t.prepareCode = 0 ∧ ∃ s, t.insert file fuel = some s ∧
          ((s.err ≠ 0 ∨ t.endCode ≠ 0) ∧ (∃ error calls, r = t.finish t.statement error calls) ∨
            s.err = 0 ∧ t.endCode = 0 ∧ ∃ error, r = t.finish false error
              ([.openDb 0, .prepare 0 t.statement] ++ s.calls.map .row ++ [.commit 0] ++
                [.finalize t.finalizeCode]))) := by
  simp only [lcsFetchFile, hdata] at h
  by_cases hopen : t.openCode ≠ 0
  · rw [if_pos hopen] at h
    exact Or.inl ⟨hopen, (Option.some.inj h).symm⟩
  · rw [if_neg hopen] at h
    refine Or.inr ⟨not_not.mp hopen, ?_⟩
    by_cases hprepare : t.prepareCode ≠ 0
    · rw [if_pos hprepare] at h
      exact Or.inl ⟨hprepare, (Option.some.inj h).symm⟩
    · rw [if_neg hprepare] at h
      obtain ⟨s, hs, h⟩ := Option.bind_eq_some_iff.mp h
      refine Or.inr ⟨not_not.mp hprepare, s, hs, ?_⟩
      by_cases herr : s.err ≠ 0
      · rw [if_pos herr] at h
        exact Or.inl ⟨Or.inl herr, _, _, (Option.some.inj h).symm⟩
      · rw [if_neg herr] at h
        by_cases hend : t.endCode ≠ 0
        · rw [if_pos hend] at h
          exact Or.inl ⟨Or.inr hend, _, _, (Option.some.inj h).symm⟩
        · rw [if_neg hend] at h
          refine Or.inr ⟨not_not.mp herr, not_not.mp hend, if t.finalizeCode ≠ 0 then 180 else 0,
            ?_⟩
          rw [not_not.mp hopen, not_not.mp hprepare, not_not.mp hend] at h
          exact (Option.some.inj h).symm

/-- The error after the clean-up. -/
theorem finish_fst (t : TableCalls) (stmtOpen : Bool) (error : ℤ) (calls : List SqliteCall) :
    (t.finish stmtOpen error calls).1 = if t.handle then t.closeCode stmtOpen else error := by
  unfold TableCalls.finish
  split <;> rfl

theorem lcsFetchFile_mono {r : ℤ × List SqliteCall} (h : lcsFetchFile fuel t = some r) {m : ℕ}
    (hm : fuel ≤ m) : lcsFetchFile m t = some r := by
  cases hdata : t.data with
  | none =>
    simp only [lcsFetchFile, hdata] at h ⊢
    exact h
  | some file =>
    simp only [lcsFetchFile, hdata] at h ⊢
    by_cases hopen : t.openCode ≠ 0
    · rwa [if_pos hopen] at h ⊢
    · rw [if_neg hopen] at h ⊢
      by_cases hprepare : t.prepareCode ≠ 0
      · rwa [if_pos hprepare] at h ⊢
      · rw [if_neg hprepare] at h ⊢
        obtain ⟨s, hs, h⟩ := Option.bind_eq_some_iff.mp h
        exact Option.bind_eq_some_iff.mpr ⟨s, insert_mono hs hm, h⟩

/-- Closing a connection without a statement hides the error before it. -/
theorem lcsFetchFile_hidden {r : ℤ × List SqliteCall} (hdata : t.data = some file)
    (hhandle : t.handle = true) (hnone : t.openCode ≠ 0 ∨ t.statement = false)
    (h : lcsFetchFile fuel t = some r) : r.1 = 0 := by
  have hidle : ∀ error calls, (t.finish false error calls).1 = 0 := fun error calls => by
    rw [finish_fst, hhandle, if_pos rfl, t.close_idle]
  rcases lcsFetchFile_cases hdata h with ⟨-, rfl⟩ | ⟨hopen, hrest⟩
  · exact hidle _ _
  · have hstatement : t.statement = false := hnone.resolve_left (not_not.mpr hopen)
    rcases hrest with ⟨-, rfl⟩ | ⟨-, s, -, ⟨-, error, calls, rfl⟩ | ⟨-, -, error, rfl⟩⟩
    · rw [hstatement]
      exact hidle _ _
    · rw [hstatement]
      exact hidle _ _
    · exact hidle _ _

/-- Closing fails while the statement is open, so a failed row or commit leaves an error. -/
theorem lcsFetchFile_reports {r : ℤ × List SqliteCall} (hdata : t.data = some file)
    (hopen : t.openCode = 0) (hstatement : t.statement = true) (h : lcsFetchFile fuel t = some r)
    (hfailed : ∃ c ∈ r.2, c.failed = true) : r.1 ≠ 0 := by
  have hhandle : t.handle = true := t.handle_open hopen
  have hprepare : ¬ t.prepareCode ≠ 0 := fun hne => by
    rw [t.prepare_failed hne] at hstatement
    cases hstatement
  rcases lcsFetchFile_cases hdata h with ⟨hne, -⟩ | ⟨-, ⟨hne, -⟩ | ⟨-, s, hs, hend⟩⟩
  · exact absurd hopen hne
  · exact absurd hne hprepare
  · rcases hend with ⟨-, error, calls, rfl⟩ | ⟨herr, -, error, rfl⟩
    · rw [finish_fst, hhandle, if_pos rfl, hstatement]
      exact t.close_busy
    · -- nothing failed then
      exfalso
      obtain ⟨c, hc, hcf⟩ := hfailed
      rw [TableCalls.finish, if_pos hhandle] at hc
      simp only [hstatement, List.append_assoc, List.mem_append, List.mem_map, List.mem_cons,
        List.not_mem_nil, or_false] at hc
      rcases hc with (rfl | rfl) | ⟨d, hd, rfl⟩ | rfl | rfl | rfl
      · cases hcf
      · cases hcf
      · exact insert_failed hs ⟨d, hd, hcf⟩ herr
      · cases hcf
      · cases hcf
      · cases hcf

/-- A failure to open without a connection leaves its own code. -/
theorem lcsFetchFile_noHandle (hdata : t.data = some file) (hhandle : t.handle = false) (fuel : ℕ) :
    t.openCode ≠ 0 ∧ lcsFetchFile fuel t = some (t.openCode, [.openDb t.openCode]) := by
  have hopen : t.openCode ≠ 0 := fun h => by
    rw [t.handle_open h] at hhandle
    cases hhandle
  refine ⟨hopen, ?_⟩
  simp only [lcsFetchFile, hdata, if_pos hopen, TableCalls.finish, hhandle, Bool.false_eq_true,
    if_false]

end FetchFile

theorem reported_stopsAt {t : TableCalls} (h : Reported t) : StopsAt t := by
  obtain ⟨n, err, calls, herr, hrun⟩ := h
  intro before behind hbefore
  induction before with
  | nil =>
    refine ⟨n, err, herr, fun fuel hfuel => ?_⟩
    simp only [List.nil_append, lcsFetchClist, if_true, hrun fuel hfuel, bind, Option.bind_some,
      if_pos herr]
  | cons p before ih =>
    obtain ⟨m, err', herr', hrest⟩ := ih fun q hq => hbefore q (List.mem_cons_of_mem p hq)
    obtain ⟨hformat, k, calls', hp⟩ := hbefore p List.mem_cons_self
    refine ⟨max m k, err', herr', fun fuel hfuel => ?_⟩
    rw [List.cons_append, lcsFetchClist, if_pos hformat, hp fuel (by omega), List.cons_append]
    simp only [bind, Option.bind_some, ne_eq, not_true_eq_false, if_false,
      hrest fuel (by omega)]

/-- A failed import is reported, and ends the list, exactly when there is no connection to close or
the statement that keeps it open: closing hides the failure to open or to prepare. -/
theorem import_failure_reported_iff (t : TableCalls) :
    (ImportFails t → Reported t ∧ StopsAt t) ↔
      t.data = none ∨ t.handle = false ∨ t.openCode = 0 ∧ t.statement = true := by
  constructor
  · intro h
    by_contra hnot
    rw [not_or, not_or, not_and_or] at hnot
    obtain ⟨hdata, hhandle, hnone⟩ := hnot
    obtain ⟨file, hfile⟩ := Option.ne_none_iff_exists'.mp hdata
    have hnone : t.openCode ≠ 0 ∨ t.statement = false := hnone.imp id Bool.eq_false_iff.mpr
    have hfails : ImportFails t := by
      refine Or.inl ⟨Option.isSome_iff_exists.mpr ⟨file, hfile⟩, ?_⟩
      exact hnone.imp id Or.inr
    obtain ⟨⟨n, err, calls, herr, hrun⟩, -⟩ := h hfails
    exact herr (lcsFetchFile_hidden hfile (Bool.not_eq_false _ ▸ hhandle) hnone
      (hrun (n + 1) (Nat.lt_succ_self n)))
  · intro hcond hfails
    suffices hreported : Reported t from ⟨hreported, reported_stopsAt hreported⟩
    cases hdata : t.data with
    | none =>
      exfalso
      rcases hfails with ⟨hsome, -⟩ | ⟨fuel, r, hr, c, hc, -⟩
      · rw [hdata] at hsome
        cases hsome
      · simp only [lcsFetchFile, hdata, Option.some.injEq] at hr
        subst hr
        cases hc
    | some file =>
      rcases hcond with hnone | hhandle | ⟨hopen, hstatement⟩
      · rw [hdata] at hnone
        cases hnone
      · have hrun := lcsFetchFile_noHandle hdata hhandle
        exact ⟨0, t.openCode, _, (hrun 0).1, fun fuel _ => (hrun fuel).2⟩
      · rcases hfails with ⟨-, hne | hne | hne⟩ | ⟨fuel, r, hr, hfailed⟩
        · exact absurd hopen hne
        · rw [t.prepare_failed hne] at hstatement
          cases hstatement
        · rw [hstatement] at hne
          cases hne
        · exact ⟨fuel, r.1, r.2, lcsFetchFile_reports hdata hopen hstatement hr hfailed,
            fun m hm => lcsFetchFile_mono hr hm.le⟩

/-- A data file for a table that the database does not have: `SQLITE_ERROR` from
`sqlite3_prepare_v2`. -/
def missingTable : TableCalls :=
  ⟨some [97, 10], 0, true, 1, false, false, true, okCodes, 0, 0, fun busy => if busy then 5 else 0,
    fun _ => rfl, fun _ => rfl, rfl, fun h => nomatch h⟩

/-- The failure to prepare is lost. -/
theorem missing_table_unreported : ¬ ∀ t : TableCalls, ImportFails t → Reported t := by
  intro h
  have hfails : ImportFails missingTable := Or.inl ⟨rfl, Or.inr (Or.inl Int.one_ne_zero)⟩
  obtain ⟨n, err, calls, herr, hrun⟩ := h missingTable hfails
  exact herr (lcsFetchFile_hidden (t := missingTable) rfl rfl (Or.inr rfl)
    (hrun (n + 1) (Nat.lt_succ_self n)))

end MemoryLeak.Cluster.Inserts
