import MemoryLeak.CText
import Mathlib.Data.Fin.VecNotation

/-!
# Rows of agents and of auto dial details

What `lcs_shm_write` and `lcs_audd_shmwrite` copy from a row of their query to a cell of zeros in
shared memory. A null pointer, a text that leaves its array and a number that leaves its type have
no outcome.
-/
namespace MemoryLeak.Cluster
open MemoryLeak.CBytes MemoryLeak.CText

/-- The texts `val` of a row; NULL is a null pointer. -/
structure SqlRow (ncols : ℕ) where
  val : Fin ncols → Option Bytes
  noNul : ∀ i, ∀ s ∈ val i, (0 : UInt8) ∉ s

/-- What a column is copied to. -/
inductive Column
  | number (bits : ℕ)
  | text (size : ℕ)
  | char

namespace SqlRow

variable {ncols : ℕ}

/-- A row from its texts; those left out are empty. -/
def ofTexts (texts : List Bytes) (h : texts.flatten.contains 0 = false) : SqlRow ncols where
  val i := some (texts[i.val]?.getD [])
  noNul i s hs hzero := by
    cases hs
    cases htext : texts[i.val]? with
    | none =>
      rw [htext] at hzero
      exact List.not_mem_nil hzero
    | some t =>
      rw [htext] at hzero
      rw [List.contains_eq_mem, decide_eq_false_iff_not] at h
      exact h (List.mem_flatten_of_mem (List.mem_of_getElem? htext) hzero)

section Copy

variable (row : SqlRow ncols) (i : Fin ncols)

/-- `strcat(p, val[i])` to a `char[n]` of zeros. -/
def strcat (n : ℕ) : Option (CStr n) :=
  match h : row.val i with
  | none => none
  | some s => if hlt : s.length < n then some ⟨s, hlt, row.noNul i s h⟩ else none

/-- `sscanf(val[i], ..)` of `%hu`, `%u`, `%lu` or `%llu`, to a zero of `w` bits; a minus takes the
number from `2^w`. -/
def sscanf (w : ℕ) : Option (BitVec w) := do
  let s ← row.val i
  match scanD s with
  | none => some 0
  | some v => if v.natAbs < 2 ^ w then some (BitVec.ofInt w v) else none

/-- `sscanf(val[i], "%c", ..)` to a zero. -/
def sscanfC : Option UInt8 := (row.val i).map fun s => s.headD 0

/-- A column is no NULL, and its text or number fits. -/
def Fits (c : Column) : Prop :=
  ∃ s, row.val i = some s ∧
    match c with
    | .number w => ∀ v, scanD s = some v → v.natAbs < 2 ^ w
    | .text n => s.length < n
    | .char => True

theorem strcat_eq_some_iff {n : ℕ} {c : CStr n} :
    row.strcat i n = some c ↔ row.val i = some c.bytes := by
  rw [strcat]
  split
  · next h => simp [h]
  · next s h =>
    split_ifs with hlt
    · simp only [h, Option.some.injEq]
      exact ⟨fun hc => hc ▸ rfl, fun hs => CStr.ext hs⟩
    · simp only [h, Option.some.injEq, false_iff]
      exact fun hs => hlt (hs ▸ c.lt)

theorem strcat_fits {n : ℕ} : (∃ c, row.strcat i n = some c) ↔ row.Fits i (.text n) := by
  simp only [strcat_eq_some_iff]
  constructor
  · rintro ⟨c, hc⟩
    exact ⟨c.bytes, hc, c.lt⟩
  · rintro ⟨s, hs, hlt⟩
    exact ⟨⟨s, hlt, row.noNul i s hs⟩, hs⟩

theorem sscanf_fits {w : ℕ} : (∃ x, row.sscanf i w = some x) ↔ row.Fits i (.number w) := by
  cases hs : row.val i with
  | none => simp [sscanf, Fits, hs]
  | some s =>
    cases hv : scanD s with
    | none => simp [sscanf, Fits, hs, hv]
    | some v =>
      by_cases hlt : v.natAbs < 2 ^ w
      · simp [sscanf, Fits, hs, hv, hlt]
      · simp [sscanf, Fits, hs, hv, hlt]

theorem sscanfC_fits : (∃ x, row.sscanfC i = some x) ↔ row.Fits i .char := by
  simp [sscanfC, Fits]

end Copy

end SqlRow

/-! ### Agents -/

structure LcsMmapAgents where
  id : UInt64
  version : UInt64
  agentNumber : CStr 40
  vcontext : CStr 255
  agentStatus : CStr 7
  currentDnd : CStr 255
  email : CStr 255
  extension : CStr 255
  isAllowMapping : UInt8
  isEnable : UInt8
  isInbound : UInt8
  lastHistoryId : UInt64
  name : CStr 40
  password : CStr 40
  phoneNumber : CStr 255
  priority : UInt32
  queueId : UInt32
  f1Code : CStr 255
  fixedExtension : CStr 255
  customerName : CStr 255

/-- The columns of `agents`. -/
abbrev AgentRow := SqlRow 20

/-- The number of an agent. -/
abbrev AgentRow.number (row : AgentRow) : Option Bytes := row.val 2

/-- What `lcs_shm_write` stores of a row. -/
def readAgent (row : AgentRow) : Option LcsMmapAgents := do
  let id ← row.sscanf 0 64
  let version ← row.sscanf 1 64
  let agentNumber ← row.strcat 2 40
  let vcontext ← row.strcat 3 255
  let agentStatus ← row.strcat 4 7
  let currentDnd ← row.strcat 5 255
  let email ← row.strcat 6 255
  let extension ← row.strcat 7 255
  let isAllowMapping ← row.sscanfC 8
  let isEnable ← row.sscanfC 9
  let isInbound ← row.sscanfC 10
  let lastHistoryId ← row.sscanf 11 64
  let name ← row.strcat 12 40
  let password ← row.strcat 13 40
  let phoneNumber ← row.strcat 14 255
  let priority ← row.sscanf 15 32
  let queueId ← row.sscanf 16 32
  let f1Code ← row.strcat 17 255
  let fixedExtension ← row.strcat 18 255
  let customerName ← row.strcat 19 255
  some {
    id := ⟨id⟩, version := ⟨version⟩, agentNumber, vcontext, agentStatus, currentDnd, email,
    extension, isAllowMapping, isEnable, isInbound, lastHistoryId := ⟨lastHistoryId⟩, name,
    password, phoneNumber, priority := ⟨priority⟩, queueId := ⟨queueId⟩, f1Code, fixedExtension,
    customerName }

/-- The fields of `lcs_mmap_agents`. -/
def agentColumns : Fin 20 → Column :=
  ![.number 64, .number 64, .text 40, .text 255, .text 7, .text 255, .text 255, .text 255, .char,
    .char, .char, .number 64, .text 40, .text 40, .text 255, .number 32, .number 32, .text 255,
    .text 255, .text 255]

/-- Every column of an agent fits its field. -/
def AgentFits (row : AgentRow) : Prop := ∀ i, row.Fits i (agentColumns i)

/-- Columns that are read one after the other are all read exactly when each of them is. -/
theorem exists_bind_iff {α β : Type} {n : ℕ} {P : Fin (n + 1) → Prop} {x : Option α}
    {f : α → Option β} (hx : (∃ a, x = some a) ↔ P 0)
    (hf : ∀ a, (∃ b, f a = some b) ↔ ∀ i : Fin n, P i.succ) :
    (∃ b, x.bind f = some b) ↔ ∀ i, P i := by
  rw [Fin.forall_fin_succ, ← hx]
  constructor
  · rintro ⟨b, hb⟩
    obtain ⟨a, ha, hfa⟩ := Option.bind_eq_some_iff.mp hb
    exact ⟨⟨a, ha⟩, (hf a).mp ⟨b, hfa⟩⟩
  · rintro ⟨⟨a, ha⟩, hrest⟩
    obtain ⟨b, hb⟩ := (hf a).mpr hrest
    exact ⟨b, Option.bind_eq_some_iff.mpr ⟨a, ha, hb⟩⟩

theorem readAgent_fits (row : AgentRow) : (∃ a, readAgent row = some a) ↔ AgentFits row := by
  unfold readAgent AgentFits
  repeat' refine exists_bind_iff ?_ fun _ => ?_
  all_goals first
    | exact row.sscanf_fits _
    | exact row.strcat_fits _
    | exact row.sscanfC_fits _
    | exact ⟨fun _ i => i.elim0, fun _ => ⟨_, rfl⟩⟩

/-- `agent_number` is the text of the row. -/
theorem readAgent_number {row : AgentRow} {a : LcsMmapAgents} (h : readAgent row = some a) :
    row.number = some a.agentNumber.bytes := by
  unfold readAgent at h
  obtain ⟨_, -, h⟩ := Option.bind_eq_some_iff.mp h
  obtain ⟨_, -, h⟩ := Option.bind_eq_some_iff.mp h
  obtain ⟨agentNumber, hnumber, h⟩ := Option.bind_eq_some_iff.mp h
  -- the columns behind the number
  iterate 17 obtain ⟨_, -, h⟩ := Option.bind_eq_some_iff.mp h
  cases h
  exact row.strcat_eq_some_iff 2 |>.mp hnumber

/-! ### Auto dial details -/

structure LcsMmapAutoDialDetail where
  id : UInt64
  phoneType : CStr 8
  skill : UInt16
  customerId : CStr 16
  applicationId : CStr 32
  note : CStr 255
  phoneNumber : CStr 25

/-- The columns of the query for `auto_dial_detail`. -/
abbrev AuddRow := SqlRow 7

/-- What `lcs_audd_shmwrite` stores of a row. -/
def readAudd (row : AuddRow) : Option LcsMmapAutoDialDetail := do
  let id ← row.sscanf 0 64
  let phoneType ← row.strcat 1 8
  let skill ← row.sscanf 2 16
  let customerId ← row.strcat 3 16
  let applicationId ← row.strcat 4 32
  let note ← row.strcat 5 255
  let phoneNumber ← row.strcat 6 25
  some { id := ⟨id⟩, phoneType, skill := ⟨skill⟩, customerId, applicationId, note, phoneNumber }

/-- The fields of `lcs_mmap_auto_dial_detail`. -/
def auddColumns : Fin 7 → Column :=
  ![.number 64, .text 8, .number 16, .text 16, .text 32, .text 255, .text 25]

/-- Every column of a detail fits its field. -/
def AuddFits (row : AuddRow) : Prop := ∀ i, row.Fits i (auddColumns i)

theorem readAudd_fits (row : AuddRow) : (∃ d, readAudd row = some d) ↔ AuddFits row := by
  unfold readAudd AuddFits
  repeat' refine exists_bind_iff ?_ fun _ => ?_
  all_goals first
    | exact row.sscanf_fits _
    | exact row.strcat_fits _
    | exact ⟨fun _ i => i.elim0, fun _ => ⟨_, rfl⟩⟩

/-- The id of a row. -/
def AuddRow.id (row : AuddRow) : Option UInt64 := (row.sscanf 0 64).map UInt64.ofBitVec

theorem readAudd_id {row : AuddRow} {d : LcsMmapAutoDialDetail} (h : readAudd row = some d) :
    AuddRow.id row = some d.id := by
  unfold readAudd at h
  obtain ⟨id, hid, h⟩ := Option.bind_eq_some_iff.mp h
  iterate 6 obtain ⟨_, -, h⟩ := Option.bind_eq_some_iff.mp h
  cases h
  rw [AuddRow.id, hid]
  rfl

end MemoryLeak.Cluster
