import MemoryLeak.Cluster.ShmIndex
import MemoryLeak.TextFile

/-!
# The report of calls that were not connected

`lcs_exec_cbtrue` of `A_000008_05m` writes a line for each row of its query and takes some of the
columns from the index of auto dial details. What follows a null pointer, reads behind the end of
a text or divides by zero has no outcome.
-/
namespace MemoryLeak.Cluster.NotConnect
open MemoryLeak.CBytes MemoryLeak.CText MemoryLeak.TextFile

/-! ### The program -/

abbrev Detail := LcsMmapAutoDialDetail

/-- The texts `val` of a row: the id and fourteen columns. -/
structure CallRow where
  val : Fin 15 → Bytes
  noNul : ∀ i, (0 : UInt8) ∉ val i

/-- `s[k]`, the text being followed by a NUL. -/
def charAt (s : Bytes) (k : ℕ) : Option UInt8 := (s ++ [0])[k]?

/-- `p0->skill==1` chooses between two texts. -/
def bySkill (p0 : Option Detail) (one other : Bytes) : Option Bytes :=
  p0.map fun d => if d.skill = 1 then one else other

/-- `"PD_NKP"`, `"NKP"`, `"PD_NAB"`, `"NAB"`, `"PD_NAP"` and `"ANSWER"`. -/
def pdNkp : Bytes := [80, 68, 95, 78, 75, 80]
def nkp : Bytes := [78, 75, 80]
def pdNab : Bytes := [80, 68, 95, 78, 65, 66]
def nab : Bytes := [78, 65, 66]
def pdNap : Bytes := [80, 68, 95, 78, 65, 80]
def answer : Bytes := [65, 78, 83, 87, 69, 82]

/-- `"NO ANSWER"` and `"Uptrail_Auto_"`. -/
def noAnswer : Bytes := [78, 79, 32, 65, 78, 83, 87, 69, 82]
def uptrailAuto : Bytes := [85, 112, 116, 114, 97, 105, 108, 95, 65, 117, 116, 111, 95]

/-- `"VPBFC"` or `"VPBANK"`, by the length of the application's id. -/
def financierId (p0 : Option Detail) (val : Fin 15 → Bytes) : Bytes :=
  if val 0 = [] then []
  else match p0 with
    | none => []
    | some d => if d.applicationId.bytes.length = 16 then [86, 80, 66, 70, 67]
      else [86, 80, 66, 65, 78, 75]

def applId : Option Detail → Bytes
  | none => []
  | some d => d.applicationId.bytes

def custId (p0 : Option Detail) (val : Fin 15 → Bytes) : Bytes :=
  if val 3 = [] then []
  else match p0 with
    | none => []
    | some d => d.customerId.bytes

/-- `"PDS00000"` or `"ES100000"`. -/
def userId (p0 : Option Detail) (val : Fin 15 → Bytes) : Bytes :=
  if val 4 = [] then []
  else (bySkill p0 [80, 68, 83, 48, 48, 48, 48, 48] [69, 83, 49, 48, 48, 48, 48, 48]).getD []

/-- Only here and in `contactedBy` is `p0` used without a test. The last `else` of the source is
never reached. -/
def actionCode (p0 : Option Detail) (val : Fin 15 → Bytes) : Option Bytes := do
  let second ← charAt (val 7) 1
  if second = 0 then bySkill p0 pdNkp nkp
  else
    let third ← charAt (val 7) 2
    if third = 0 then some answer else bySkill p0 pdNab nab

/-- `"PDS"` or `"ECS"`. -/
def contactedBy (p0 : Option Detail) (val : Fin 15 → Bytes) : Option Bytes :=
  if val 13 = [] then some [] else bySkill p0 [80, 68, 83] [69, 67, 83]

/-- A text of remarks is followed by two tabs. -/
def remarks (p0 : Option Detail) (val : Fin 15 → Bytes) : List Bytes :=
  if val 14 = [] then [[]]
  else
    let phone := match p0 with
      | none => []
      | some d => d.phoneNumber.bytes
    let code := if val 14 = noAnswer then bySkill p0 pdNkp nkp else bySkill p0 pdNap nab
    [uptrailAuto ++ phone ++ 95 :: code.getD [], []]

def reportFields (p0 : Option Detail) (val : Fin 15 → Bytes) : Option (List Bytes) := do
  let code ← actionCode p0 val
  let contact ← contactedBy p0 val
  some ([financierId p0 val, applId p0, custId p0 val, userId p0 val, val 5, val 6, code,
    val 8, val 9, val 10, val 11, val 12, contact] ++ remarks p0 val)

/-- `u` after `sscanf(val[0], "%llu", &u)`. -/
def rowId (val : Fin 15 → Bytes) : UInt64 := UInt64.ofNat ((scanLu (val 0)).getD 0)

/-- The line written for a row, with an index for `n` details. -/
def execCbtrue (n : ℕ) (s : SlotIndex.Index ℤ Detail) (row : CallRow) : Option Bytes := do
  if n = 0 then none
  else
    let p0 := auddLookup n s (rowId row.val)
    let fields ← reportFields p0 row.val
    some (tabLine fields)

/-- The same with the index of the details `audd`, whose texts fit their arrays. -/
def lcsExecCbtrue (audd : List Detail) (row : CallRow) : Option Bytes :=
  execCbtrue audd.length (auddIndex audd) row

/-! ### The shape of a line -/

/-- The columns of the query behind the id. -/
abbrev reportColumns : ℕ := 14

/-- The detail with the id of a row, if it is among the first two of its bucket. -/
def rowDetail (audd : List Detail) (val : Fin 15 → Bytes) : Option Detail :=
  ((audd.filter fun d => d.id.toNat % audd.length = (rowId val).toNat % audd.length).take
    lcsAuddHashArrN).find? fun d => d.id = rowId val

/-- The texts of a row and of its detail that are written as they are. -/
def printed (p0 : Option Detail) (val : Fin 15 → Bytes) : List Bytes :=
  [applId p0, custId p0 val, val 5, val 6, val 8, val 9, val 10, val 11, val 12]

/-- The detail is found where it is used without a test, there are no remarks, and no text that
is written as it is parts a field. -/
structure KeepsShape (audd : List Detail) (row : CallRow) : Prop where
  loaded : audd ≠ []
  code : row.val 7 ≠ []
  found : (rowDetail audd row.val).isSome = true ∨ (row.val 7).length = 2 ∧ row.val 13 = []
  remarks : row.val 14 = []
  plain : ∀ t ∈ printed (rowDetail audd row.val) row.val, Plain t

theorem auddLookup_eq (audd : List Detail) (val : Fin 15 → Bytes) :
    auddLookup audd.length (auddIndex audd) (rowId val) = rowDetail audd val := by
  have hbucket : -1 < lcsCommHashAudd (rowId val) audd.length := by
    rw [lcsCommHashAudd]
    omega
  have hload : auddIndex audd =
      SlotIndex.load lcsAuddHashArrN (fun d => lcsCommHashAudd d.id audd.length) audd := rfl
  rw [auddLookup, if_pos hbucket, hload, SlotIndex.probe_load, rowDetail]
  simp only [lcsCommHashAudd, Int.natCast_inj]

theorem charAt_eq_zero_iff {s : Bytes} (hs : (0 : UInt8) ∉ s) {k : ℕ} :
    charAt s k = some 0 ↔ s.length = k := by
  rcases Nat.lt_trichotomy k s.length with h | h | h
  · rw [charAt, List.getElem?_append_left h, List.getElem?_eq_getElem h, Option.some.injEq]
    exact iff_of_false (fun h0 => hs (h0 ▸ List.getElem_mem h)) (Nat.ne_of_gt h)
  · rw [charAt, h, List.getElem?_append_right (Nat.le_refl _)]
    simp
  · rw [charAt, List.getElem?_eq_none (by rwa [List.length_append, List.length_singleton])]
    exact iff_of_false (by simp) (Nat.ne_of_lt h)

theorem charAt_eq_none_iff {s : Bytes} {k : ℕ} : charAt s k = none ↔ s.length < k := by
  rw [charAt, List.getElem?_eq_none_iff, List.length_append, List.length_singleton]
  exact Nat.succ_le_iff

/-- The length of the code chooses the branch. -/
theorem actionCode_eq {val : Fin 15 → Bytes} (hval : (0 : UInt8) ∉ val 7) (p0 : Option Detail) :
    actionCode p0 val = if (val 7).length = 0 then none
      else if (val 7).length = 1 then bySkill p0 pdNkp nkp
      else if (val 7).length = 2 then some answer
      else bySkill p0 pdNab nab := by
  have hsecond := @charAt_eq_zero_iff _ hval 1
  have hthird := @charAt_eq_zero_iff _ hval 2
  have hsecondNone := @charAt_eq_none_iff (val 7) 1
  have hthirdNone := @charAt_eq_none_iff (val 7) 2
  simp only [actionCode, bind, Option.bind]
  cases h1 : charAt (val 7) 1 with
  | none =>
    rw [h1] at hsecondNone
    rw [if_pos (by have := hsecondNone.mp rfl; omega)]
  | some c1 =>
    rw [h1, Option.some.injEq] at hsecond
    rw [h1] at hsecondNone
    have hlen : ¬ (val 7).length < 1 := fun h => nomatch hsecondNone.mpr h
    rw [if_neg (by omega : ¬ (val 7).length = 0)]
    simp only [hsecond]
    split_ifs with hone htwo
    · rfl
    · rw [hthird.mpr htwo]
      rfl
    · cases h2 : charAt (val 7) 2 with
      | none =>
        have := hthirdNone.mp h2
        omega
      | some c2 =>
        rw [h2, Option.some.injEq] at hthird
        exact if_neg fun h => htwo (hthird.mp h)

theorem bySkill_isSome (p0 : Option Detail) (one other : Bytes) :
    (bySkill p0 one other).isSome = p0.isSome := Option.isSome_map

theorem bySkill_plain {p0 : Option Detail} {one other t : Bytes} (hone : Plain one)
    (hother : Plain other) (h : bySkill p0 one other = some t) : Plain t := by
  obtain ⟨d, -, rfl⟩ := Option.map_eq_some_iff.mp h
  split_ifs
  · exact hone
  · exact hother

theorem bySkill_getD_plain (p0 : Option Detail) {one other : Bytes} (hone : Plain one)
    (hother : Plain other) : Plain ((bySkill p0 one other).getD []) := by
  cases h : bySkill p0 one other with
  | none => exact ⟨List.not_mem_nil, List.not_mem_nil⟩
  | some t => exact bySkill_plain hone hother h

instance (t : Bytes) : Decidable (Plain t) := inferInstanceAs (Decidable (_ ∧ _))

theorem actionCode_plain {p0 : Option Detail} {val : Fin 15 → Bytes} (hval : (0 : UInt8) ∉ val 7)
    {t : Bytes} (h : actionCode p0 val = some t) : Plain t := by
  rw [actionCode_eq hval] at h
  split_ifs at h
  · exact bySkill_plain (by decide) (by decide) h
  · cases h
    decide
  · exact bySkill_plain (by decide) (by decide) h

theorem contactedBy_plain {p0 : Option Detail} {val : Fin 15 → Bytes} {t : Bytes}
    (h : contactedBy p0 val = some t) : Plain t := by
  rw [contactedBy] at h
  split_ifs at h
  · cases h
    decide
  · exact bySkill_plain (by decide) (by decide) h

theorem financierId_plain (p0 : Option Detail) (val : Fin 15 → Bytes) :
    Plain (financierId p0 val) := by
  unfold financierId
  split_ifs
  · decide
  · cases p0 with
    | none => decide
    | some d =>
      dsimp only
      split_ifs <;> decide

theorem userId_plain (p0 : Option Detail) (val : Fin 15 → Bytes) : Plain (userId p0 val) := by
  rw [userId]
  split_ifs
  · decide
  · exact bySkill_getD_plain p0 (by decide) (by decide)

/-- The code and who made the contact are known where the detail is, or is not needed. -/
theorem actionCode_contactedBy_isSome_iff {val : Fin 15 → Bytes} (hval : (0 : UInt8) ∉ val 7)
    (p0 : Option Detail) :
    (actionCode p0 val).isSome = true ∧ (contactedBy p0 val).isSome = true ↔
      val 7 ≠ [] ∧ (p0.isSome = true ∨ (val 7).length = 2 ∧ val 13 = []) := by
  rw [actionCode_eq hval, contactedBy, ← List.length_pos_iff]
  split_ifs with h0 hcontact hone hcontact htwo hcontact hcontact
  all_goals
    simp only [bySkill_isSome, Option.isSome_none, Option.isSome_some]
    grind

theorem reportFields_eq_some_iff {p0 : Option Detail} {val : Fin 15 → Bytes}
    {fields : List Bytes} : reportFields p0 val = some fields ↔
      ∃ code contact, actionCode p0 val = some code ∧ contactedBy p0 val = some contact ∧
        [financierId p0 val, applId p0, custId p0 val, userId p0 val, val 5, val 6, code,
          val 8, val 9, val 10, val 11, val 12, contact] ++ remarks p0 val = fields := by
  simp only [reportFields, bind, Option.bind_eq_some_iff, Option.some.injEq]
  grind

/-- Remarks bring a field too many; without them the fields are as many as the columns. -/
theorem reportFields_shape {p0 : Option Detail} {val : Fin 15 → Bytes} (hval : (0 : UInt8) ∉ val 7)
    {fields : List Bytes} (h : reportFields p0 val = some fields) :
    IsTabLine reportColumns (tabLine fields) ↔
      val 14 = [] ∧ ∀ t ∈ printed p0 val, Plain t := by
  obtain ⟨code, contact, hcode, hcontact, rfl⟩ := reportFields_eq_some_iff.mp h
  have hcodePlain := actionCode_plain hval hcode
  have hcontactPlain := contactedBy_plain hcontact
  have hfinancier := financierId_plain p0 val
  have huser := userId_plain p0 val
  have hempty : Plain [] := by decide
  by_cases hremarks : val 14 = []
  · have hone : remarks p0 val = [[]] := if_pos hremarks
    have hlen : ([financierId p0 val, applId p0, custId p0 val, userId p0 val, val 5, val 6, code,
        val 8, val 9, val 10, val 11, val 12, contact] ++ [[]]).length = reportColumns := rfl
    rw [hone, isTabLine_tabLine_iff (Nat.le_of_eq hlen.symm)]
    simp only [hremarks, printed, true_and, List.cons_append, List.nil_append,
      List.length_cons, List.length_nil, List.forall_mem_cons, hcodePlain, hcontactPlain,
      hfinancier, huser, hempty, List.not_mem_nil, false_imp_iff, implies_true, and_true]
  · have htwo : (remarks p0 val).length = 2 := by
      unfold remarks
      rw [if_neg hremarks]
      rfl
    have hlen : ([financierId p0 val, applId p0, custId p0 val, userId p0 val, val 5, val 6, code,
        val 8, val 9, val 10, val 11, val 12, contact] ++ remarks p0 val).length = 15 := by
      rw [List.length_append, htwo]
      rfl
    have hle : reportColumns ≤ 15 := by decide
    rw [isTabLine_tabLine_iff (hlen.symm ▸ hle), hlen]
    exact iff_of_false (fun h => absurd h.1 (by decide)) fun h => hremarks h.1

theorem lcsExecCbtrue_eq_some_iff {audd : List Detail} {row : CallRow} {line : Bytes} :
    lcsExecCbtrue audd row = some line ↔ audd ≠ [] ∧
      ∃ fields, reportFields (rowDetail audd row.val) row.val = some fields ∧
        tabLine fields = line := by
  rw [lcsExecCbtrue, execCbtrue, auddLookup_eq, ← List.length_pos_iff, Nat.pos_iff_ne_zero]
  split_ifs with h0
  · simp [h0]
  · simp only [bind, Option.bind_eq_some_iff, Option.some.injEq, h0, ne_eq, not_false_eq_true,
      true_and]

/-- A row is written as one line of fourteen fields exactly when its detail is found or not
needed, it has no remarks and the texts that are written as they are have no tab or newline. -/
theorem report_shape_iff (audd : List Detail) (row : CallRow) :
    (∃ line, lcsExecCbtrue audd row = some line ∧ IsTabLine reportColumns line) ↔
      KeepsShape audd row := by
  have hval := row.noNul 7
  have hknown := actionCode_contactedBy_isSome_iff hval (rowDetail audd row.val)
  constructor
  · rintro ⟨line, hrun, hline⟩
    obtain ⟨hloaded, fields, hfields, rfl⟩ := lcsExecCbtrue_eq_some_iff.mp hrun
    obtain ⟨hremarks, hplain⟩ := (reportFields_shape hval hfields).mp hline
    obtain ⟨code, contact, hcode, hcontact, -⟩ := reportFields_eq_some_iff.mp hfields
    obtain ⟨hne, hfound⟩ := hknown.mp ⟨Option.isSome_of_eq_some hcode,
      Option.isSome_of_eq_some hcontact⟩
    exact ⟨hloaded, hne, hfound, hremarks, hplain⟩
  · rintro ⟨hloaded, hne, hfound, hremarks, hplain⟩
    obtain ⟨hcode, hcontact⟩ := hknown.mpr ⟨hne, hfound⟩
    obtain ⟨code, hcode⟩ := Option.isSome_iff_exists.mp hcode
    obtain ⟨contact, hcontact⟩ := Option.isSome_iff_exists.mp hcontact
    have hfields := reportFields_eq_some_iff.mpr ⟨code, contact, hcode, hcontact, rfl⟩
    exact ⟨_, lcsExecCbtrue_eq_some_iff.mpr ⟨hloaded, _, hfields, rfl⟩,
      (reportFields_shape hval hfields).mpr ⟨hremarks, hplain⟩⟩

/-! ### A row without its detail -/

/-- A row from its texts; those left out are empty. -/
def CallRow.ofTexts (texts : List Bytes) (h : texts.flatten.contains 0 = false) : CallRow where
  val i := texts[i.val]?.getD []
  noNul i hi := by
    cases htext : texts[i.val]? with
    | none =>
      rw [htext] at hi
      exact List.not_mem_nil hi
    | some t =>
      rw [htext] at hi
      rw [List.contains_eq_mem, decide_eq_false_iff_not] at h
      exact h (List.mem_flatten_of_mem (List.mem_of_getElem? htext) hi)

/-- What the query has for an answered call: the id and `"?2"`. -/
def answeredCall (id : Bytes) (h : (0 : UInt8) ∉ id) : CallRow :=
  .ofTexts [id, [], [63], [], [], [], [], [63, 50]] (by simp [h])

/-- What the query has for a call without an answer at 10:00. -/
def unansweredCall (id : Bytes) (h : (0 : UInt8) ∉ id) : CallRow :=
  .ofTexts [id, [63], [63], [63], [63], [51, 48, 47, 49, 48, 47, 50, 48, 49, 55],
    [49, 48, 58, 48, 48], [63], [80, 72, 79, 78, 69], [78, 79, 66, 79, 68, 89],
    [84, 77, 80, 65, 68, 68], [86, 78, 68], [77, 79, 66, 67], [63], noAnswer]
      (by simp [h, noAnswer])

/-- A single detail, with the id 1. -/
def oneDetail (customerId : CStr 16) (applicationId : CStr 32) (phoneNumber : CStr 25) : Detail :=
  { id := 1, phoneType := ⟨[], by decide, by decide⟩, skill := 1, customerId, applicationId,
    note := ⟨[], by decide, by decide⟩, phoneNumber }

/-- The detail 2 is not in the index: its row uses a null pointer. The rows of the detail 1 that
is there have 14 and 15 fields. -/
theorem report_loses_shape :
    let detail := oneDetail ⟨[67], by decide, by decide⟩ ⟨[65], by decide, by decide⟩
      ⟨[48, 57], by decide, by decide⟩
    lcsExecCbtrue [detail] (unansweredCall [50] (by decide)) = none ∧
    ¬ ∃ columns, ∀ row ∈ [answeredCall [49] (by decide), unansweredCall [49] (by decide)],
      ∃ line, lcsExecCbtrue [detail] row = some line ∧ IsTabLine columns line := by
  intro detail
  refine ⟨by decide +kernel, ?_⟩
  rintro ⟨columns, h⟩
  obtain ⟨line, hrun, hline⟩ := h _ (.head _)
  obtain ⟨line', hrun', hline'⟩ := h _ (.tail _ (.head _))
  have hanswered : (lcsExecCbtrue [detail] (answeredCall [49] (by decide))).map
      (List.count 9) = some 14 := by decide +kernel
  have hunanswered : (lcsExecCbtrue [detail] (unansweredCall [49] (by decide))).map
      (List.count 9) = some 15 := by decide +kernel
  rw [hrun, Option.map_some, hline.count_tab] at hanswered
  rw [hrun', Option.map_some, hline'.count_tab] at hunanswered
  cases hanswered.symm.trans hunanswered

end MemoryLeak.Cluster.NotConnect
