import MemoryLeak.Cluster.Configs
import MemoryLeak.Cluster.NotConnect

/-!
# The lines of a report

The program of five minutes maps the indexes of the day from shared memory and writes a line for
each row of its query. What is read behind the end of a segment, from a column that is NULL or not
there, or at a null pointer has no outcome.
-/
namespace MemoryLeak.Cluster.Reports
open MemoryLeak.CBytes MemoryLeak.CText MemoryLeak.TextFile MemoryLeak.SlotIndex
open MemoryLeak.Cluster.Configs

/-! ### Segments -/

/-- What `lcs_read_shmagent` gets: no pointer, or one to what is mapped. A segment that is not there
is made and mapped without a size, and reading it has no outcome. -/
inductive Shm (α : Type) where
  | refused
  | unreadable
  | readable (a : α)

/-- What is mapped behind the pointer, if there is one. -/
def Shm.pointer {α : Type} : Shm α → Option (Option α)
  | refused => none
  | unreadable => some none
  | readable a => some (some a)

/-- The segments under their keys; cells are mapped for some size. -/
structure SharedMemory where
  agents : Bytes → Shm ℕ
  agentCells : Bytes → ℤ → Shm (Index ℤ LcsMmapAgents)
  audd : Bytes → Shm ℕ
  auddCells : Bytes → ℤ → Shm (Index ℤ LcsMmapAutoDialDetail)

/-- The count of a table and its cells, of `size` bytes each. The count is read for the size. -/
def lcsReadTable {α : Type} (num : Bytes → Shm ℕ) (cells : Bytes → ℤ → Shm α) (size : ℕ)
    (prefixshmkey name : Bytes) : Option (Option (ℕ × Option α)) := do
  let key ← intoArray 256 (prefixshmkey ++ name ++ ascii ".num")
  match (num key).pointer with
  | none => some none
  | some n => do
    let n ← n
    let key ← intoArray 256 (prefixshmkey ++ name ++ ascii ".data")
    let sz ← shmSz n size
    some ((cells key sz).pointer.map fun data => (n, data))

/-- `lcs_agt->n`, `lcs_agt_ah`, `lcs_audd->n` and `lcs_audd_auh`. -/
structure Mapped where
  agents : ℕ × Option (Index ℤ LcsMmapAgents)
  audd : ℕ × Option (Index ℤ LcsMmapAutoDialDetail)

/-- `lcs_load_shmagent` and `lcs_audd_loadshm`, which stop at the first segment that they do not
get. `A_000007` has no use for details. -/
def lcsLoadshm (shm : SharedMemory) (r : Report) (prefixshmkey : Bytes) :
    Option (Option Mapped) := do
  match ← lcsReadTable shm.agents shm.agentCells sizeofAh prefixshmkey (ascii ".agent") with
  | none => some none
  | some agents =>
    if r = .a000007 then some (some ⟨agents, (0, none)⟩)
    else do
      let audd ← lcsReadTable shm.audd shm.auddCells sizeofAuh prefixshmkey (ascii ".audd")
      some (audd.map fun audd => ⟨agents, audd⟩)

/-- Keys that have room for the name of a segment. -/
theorem key_length {shm : SharedMemory} {r : Report} {prefixshmkey : Bytes}
    (h : (lcsLoadshm shm r prefixshmkey).isSome = true) : prefixshmkey.length < 256 := by
  obtain ⟨loaded, hloaded⟩ := Option.isSome_iff_exists.mp h
  obtain ⟨agents, hagents, -⟩ := Option.bind_eq_some_iff.mp hloaded
  obtain ⟨key, hkey, -⟩ := Option.bind_eq_some_iff.mp hagents
  rw [intoArray_eq_some, List.length_append, List.length_append] at hkey
  omega

/-! ### Rows -/

/-- A row that SQLite hands to the callback. -/
structure ResultRow where
  ncols : ℕ
  columns : SqlRow ncols

namespace ResultRow

/-- `val[i]`, if that is a string. -/
def val (row : ResultRow) (i : ℕ) : Option Bytes :=
  if h : i < row.ncols then row.columns.val ⟨i, h⟩ else none

theorem val_noNul {row : ResultRow} {i : ℕ} : ∀ s ∈ row.val i, (0 : UInt8) ∉ s := by
  intro s hs
  rw [val] at hs
  split_ifs at hs with h
  · exact row.columns.noNul ⟨i, h⟩ s hs
  · cases hs

/-- The columns that `A_000008` reads: all but two of the fifteen. -/
def callRow (row : ResultRow) : Option NotConnect.CallRow :=
  if ∀ i : Fin 15, i.val ≠ 1 → i.val ≠ 2 → (row.val i).isSome = true then
    some {
      val i := (row.val i).getD []
      noNul i := by
        cases hi : row.val i with
        | none => exact List.not_mem_nil
        | some s => exact val_noNul s hi }
  else none

end ResultRow

/-- The search for an agent, which needs the cells only for a number that is not negative. -/
def Mapped.agent (m : Mapped) (number : Bytes) : Option (Option LcsMmapAgents) :=
  if m.agents.1 = 0 then none
  else match m.agents.2 with
    | some s => agentLookup m.agents.1 s number
    | none => (lcsCommHash number (-1) m.agents.1).bind fun h => if -1 < h then none else some none

/-- `u` after `sscanf(val, "%llu", &u)`, and the search for that detail. -/
def Mapped.detail (m : Mapped) (val : Bytes) : Option (Option LcsMmapAutoDialDetail) :=
  if m.audd.1 = 0 then none
  else m.audd.2.map fun s => auddLookup m.audd.1 s (UInt64.ofNat ((scanLu val).getD 0))

/-- `p1 ? p1->..: "NULL"`. -/
def orNull {α : Type} (p : Option α) (text : α → Bytes) : Bytes := (p.map text).getD (ascii "NULL")

/-- `lcs_exec_cbtrue` of `A_000007_05m`. -/
def lcsExecCbtrue007 (m : Mapped) (row : ResultRow) : Option Bytes := do
  let destination ← row.val 7
  let p1 ← m.agent destination
  let head ← (List.range 6).mapM row.val
  let waited ← row.val 6
  let dst ← row.val 8
  let agent ← row.val 9
  let talkTime ←
    if strstr agent (orNull p1 fun a => a.fixedExtension.bytes) then row.val 10
    else some (ascii "0")
  let note ← row.val (row.ncols - 1)
  some (tabLine (head ++ [orNull p1 fun a => a.vcontext.bytes, waited, destination,
    orNull p1 fun a => a.name.bytes, dst, talkTime, note]))

/-- `lcs_exec_cbtrue` of `A_000009_05m`; the column 8 is written in any case. -/
def lcsExecCbtrue009 (m : Mapped) (row : ResultRow) : Option Bytes := do
  let last ← row.val (row.ncols - 1)
  let p0 ← m.detail last
  let destination ← row.val 7
  let p1 ← m.agent destination
  let head ← (List.range 6).mapM row.val
  let waited ← row.val 6
  let rest ← (List.range' 8 (max 1 (row.ncols - 9))).mapM row.val
  some (tabLine (head ++ [orNull p1 fun a => a.vcontext.bytes, waited, destination,
    orNull p1 fun a => a.name.bytes] ++ rest ++ [orNull p0 fun d => d.phoneType.bytes]))

/-- The line that the callback of a report writes; the other reports do not read shared memory. -/
def lcsExecCbtrue (r : Report) (m : Mapped) (row : ResultRow) : Option Bytes :=
  match r with
  | .a000007 => lcsExecCbtrue007 m row
  | .a000008 => do
    let call ← row.callRow
    let s ← m.audd.2
    NotConnect.execCbtrue m.audd.1 s call
  | .a000009 => lcsExecCbtrue009 m row
  | _ => none

/-- What the rows of a query leave in the file. -/
def linesOf (r : Report) (m : Mapped) (rows : List ResultRow) : Option Bytes :=
  (rows.mapM (lcsExecCbtrue r m)).map List.flatten

theorem linesOf_isSome {r : Report} {m : Mapped} {rows : List ResultRow}
    (h : ∀ row ∈ rows, (lcsExecCbtrue r m row).isSome = true) :
    ∃ lines, linesOf r m rows = some lines := by
  induction rows with
  | nil => exact ⟨[], rfl⟩
  | cons row rows ih =>
    obtain ⟨line, hline⟩ := Option.isSome_iff_exists.mp (h row List.mem_cons_self)
    obtain ⟨lines, hlines⟩ := ih fun x hx => h x (List.mem_cons_of_mem row hx)
    obtain ⟨parts, hparts, rfl⟩ := Option.map_eq_some_iff.mp hlines
    refine ⟨line ++ parts.flatten, ?_⟩
    rw [linesOf, List.mapM_cons, hline]
    simp [hparts]

end MemoryLeak.Cluster.Reports
