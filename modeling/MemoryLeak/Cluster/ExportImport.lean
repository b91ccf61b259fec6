import MemoryLeak.CBytes
import MemoryLeak.TextFile
import Mathlib.Algebra.GroupWithZero.Nat

/-!
# Tables written by one program and read by another

Both exporters write a row as its columns, each with a tab behind it, and a newline; the
insert program reads lines into a buffer of 8192 bytes and cuts them with `strtok`. A
column without text is lost there and moves the ones behind it, and a line that is too
long becomes several rows.
-/
namespace MemoryLeak.Cluster
open MemoryLeak.CBytes MemoryLeak.CText MemoryLeak.TextFile

/-! ### The exporters -/

/-- One of `"\t\r\n"`. -/
def isBreak (c : UInt8) : Bool := c = 9 || c = 13 || c = 10

/-- `"NULL"` -/
def nullText : Bytes := [78, 85, 76, 76]

/-- `"true"` -/
def trueText : Bytes := [116, 114, 117, 101]

/-- `sprintf(&(buf[strlen(buf)]), "%s ", pch)` in a buffer of `cap` bytes. -/
def appendWord (cap : ℕ) (buf pch : Bytes) : Option Bytes :=
  if buf.length + pch.length + 2 ≤ cap then some (buf ++ pch ++ [32]) else none

/-- The first word is copied by itself, each other one with a blank behind it. -/
def copyWords (cap : ℕ) : List Bytes → Option Bytes
  | [] => some []
  | pch :: rest => if pch.length + 1 ≤ cap then rest.foldlM (appendWord cap) pch else none

/-- The text of `row[i]`, in a buffer of `cap row[i]` bytes; `none` where it does not fit. -/
def fieldText (cap : Bytes → ℕ) : Option Bytes → Option Bytes
  | none => some nullText
  | some v =>
    if byteAt v 0 = 0 then some nullText
    else if byteAt v 0 = 1 then some trueText
    else copyWords (cap v) (strtoks isBreak v)

/-- A row of `n` columns, each null or a string. -/
structure Row (n : ℕ) where
  fields : List (Option Bytes)
  length_eq : fields.length = n
  noNul : ∀ v, some v ∈ fields → (0 : UInt8) ∉ v

def rowLine (cap : Bytes → ℕ) {n : ℕ} (row : Row n) : Option Bytes := do
  let texts ← row.fields.mapM (fieldText cap)
  return texts.flatMap (· ++ [9]) ++ [10]

/-- The file after all rows of the result are fetched. -/
def exportTable (cap : Bytes → ℕ) {n : ℕ} (table : List (Row n)) : Option Bytes := do
  let lines ← table.mapM (rowLine cap)
  return lines.flatten

/-- The file of `lcs_try_fetch`: one `char buf[4096 + 1]` for all fields. -/
def lcsTryFetchFile {n : ℕ} (table : List (Row n)) : Option Bytes :=
  exportTable (fun _ => 4097) table

/-- The loop of `gethistory`: `calloc(1, strlen(row[i]) + 50)` for each field. -/
def historyExport {n : ℕ} (table : List (Row n)) : Option Bytes :=
  exportTable (fun v => v.length + 50) table

/-! ### The insert program -/

/-- One of `"\n\t"`. -/
def isColumnEnd (c : UInt8) : Bool := c = 10 || c = 9

/-- The rows inserted for the buffers read, and whether the loop was left with an error:
the statement has `params` parameters, and binding one more fails. -/
def insertRows (params : ℕ) : List Bytes → List (List Bytes) × Bool
  | [] => ([], false)
  | buffer :: rest =>
    if byteAt buffer 0 = 0 then insertRows params rest
    else if params < (strtoks isColumnEnd buffer).length then ([], true)
    else (strtoks isColumnEnd buffer :: (insertRows params rest).1, (insertRows params rest).2)

/-- `lcs_insert_general` on a file, where sqlite takes every row it is given. -/
def lcsInsertGeneral (params : ℕ) (file : Bytes) : List (List Bytes) × Bool :=
  insertRows params (fgetsAll 8192 file)

/-! ### What is exported -/

/-- The words of a field as the exporters put them together. -/
def joinWords : List Bytes → Bytes
  | [] => []
  | w :: ws => w ++ ws.flatMap (· ++ [32])

/-- The text of a field: tabs and line breaks out, and a blank behind each word but the
first. -/
def exportText : Option Bytes → Bytes
  | none => nullText
  | some v =>
    if byteAt v 0 = 0 then nullText
    else if byteAt v 0 = 1 then trueText
    else joinWords (strtoks isBreak v)

/-- The insert program gets every row of the table, with the text of each field. -/
def RoundTrip {n : ℕ} (exporter : List (Row n) → Option Bytes) (table : List (Row n)) : Prop :=
  ∃ file, exporter table = some file ∧
    lcsInsertGeneral n file = (table.map fun row => row.fields.map exportText, false)

/-- A field that is not made of tabs and line breaks only. -/
def HasText : Option Bytes → Prop
  | none => True
  | some v => v = [] ∨ ∃ c ∈ v, isBreak c = false

/-- The words that start in the rest of a field. -/
def wordStarts (inWord : Bool) : Bytes → ℕ
  | [] => 0
  | c :: s =>
    if isBreak c then wordStarts false s
    else (if inWord then 0 else 1) + wordStarts true s

/-- The length of a column. -/
def fieldWidth : Option Bytes → ℕ
  | none => 4
  | some v =>
    if byteAt v 0 = 0 ∨ byteAt v 0 = 1 then 4
    else v.countP (fun c => !isBreak c) + wordStarts false v - 1

/-- Every column has a text, and the line fits the reader's buffer. -/
structure RowFits {n : ℕ} (row : Row n) : Prop where
  hasText : ∀ v ∈ row.fields, HasText v
  width : (row.fields.map fun v => fieldWidth v + 1).sum + 1 ≤ 8191

/-! ### Words of a field -/

theorem appendWord_fold (cap : ℕ) (ws : List Bytes) {buf t : Bytes} (hbuf : buf.length + 1 ≤ cap) :
    ws.foldlM (appendWord cap) buf = some t ↔
      t.length + 1 ≤ cap ∧ t = buf ++ ws.flatMap (· ++ [32]) := by
  induction ws generalizing buf with
  | nil =>
    rw [List.foldlM_nil, List.flatMap_nil, List.append_nil]
    constructor
    · intro h
      cases h
      exact ⟨hbuf, rfl⟩
    · rintro ⟨_, rfl⟩
      rfl
  | cons w ws ih =>
    rw [List.foldlM_cons, List.flatMap_cons]
    by_cases hroom : buf.length + w.length + 2 ≤ cap
    · have hnext : (buf ++ w ++ [32]).length + 1 ≤ cap := by
        simp only [List.length_append, List.length_singleton]
        omega
      unfold appendWord
      rw [if_pos hroom, Option.bind_eq_bind, Option.bind_some]
      apply (ih hnext).trans
      rw [List.append_assoc, List.append_assoc, List.append_assoc]
    · unfold appendWord
      rw [if_neg hroom, Option.bind_eq_bind, Option.bind_none]
      constructor
      · intro h
        cases h
      · rintro ⟨hlen, rfl⟩
        simp only [List.length_append, List.length_singleton] at hlen
        omega

theorem copyWords_eq_some {cap : ℕ} {ws : List Bytes} {t : Bytes} (hcap : 1 ≤ cap) :
    copyWords cap ws = some t ↔ t.length + 1 ≤ cap ∧ t = joinWords ws := by
  cases ws with
  | nil =>
    rw [copyWords, joinWords]
    constructor
    · intro h
      cases h
      exact ⟨hcap, rfl⟩
    · rintro ⟨_, rfl⟩
      rfl
  | cons w ws =>
    rw [copyWords, joinWords]
    by_cases hroom : w.length + 1 ≤ cap
    · rw [if_pos hroom]
      exact appendWord_fold cap ws hroom
    · rw [if_neg hroom]
      constructor
      · intro h
        cases h
      · rintro ⟨hlen, rfl⟩
        rw [List.length_append] at hlen
        omega

theorem wordStarts_eq (cur s : Bytes) :
    (tokensFrom isBreak cur s).length =
      (if cur = [] then 0 else 1) + wordStarts (!cur.isEmpty) s := by
  induction s generalizing cur with
  | nil =>
    unfold tokensFrom wordStarts
    split_ifs <;> rfl
  | cons c s ih =>
    unfold tokensFrom wordStarts
    by_cases hc : isBreak c = true
    · rw [if_pos hc, if_pos hc]
      by_cases hcur : cur = []
      · rw [if_pos hcur, if_pos hcur, ih]
        rfl
      · rw [if_neg hcur, if_neg hcur, List.length_cons, ih, if_pos rfl, Nat.zero_add, Nat.add_comm]
        rfl
    · rw [if_neg hc, if_neg hc, ih, if_neg (by simp)]
      cases cur <;> simp

theorem joinWords_length (ws : List Bytes) :
    (joinWords ws).length = ws.flatten.length + ws.length - 1 := by
  cases ws with
  | nil => rfl
  | cons w ws =>
    have hrest : (ws.flatMap (· ++ [32])).length = ws.flatten.length + ws.length := by
      induction ws with
      | nil => rfl
      | cons u us ih =>
        rw [List.flatMap_cons, List.flatten_cons]
        simp only [List.length_append, List.length_cons, List.length_nil, ih]
        omega
    unfold joinWords
    rw [List.length_append, hrest, List.flatten_cons, List.length_append, List.length_cons]
    omega

/-- The width of a column is the length of its text. -/
theorem exportText_length {v : Option Bytes} (hv : ∀ b, v = some b → (0 : UInt8) ∉ b) :
    (exportText v).length = fieldWidth v := by
  cases v with
  | none => rfl
  | some b =>
    rw [exportText, fieldWidth]
    by_cases h0 : byteAt b 0 = 0
    · rw [if_pos h0, if_pos (Or.inl h0)]
      rfl
    · by_cases h1 : byteAt b 0 = 1
      · rw [if_neg h0, if_pos h1, if_pos (Or.inr h1)]
        rfl
      · have hb := hv b rfl
        have hcount : (strtoks isBreak b).length = wordStarts false b := by
          rw [strtoks, text_of_noNul hb, wordStarts_eq, if_pos rfl, Nat.zero_add]
          rfl
        rw [if_neg h0, if_neg h1, if_neg (not_or_intro h0 h1), joinWords_length,
          strtoks_flatten hb, hcount, List.countP_eq_length_filter]

/-- A column is empty for the fields made of tabs and line breaks, and for no other. -/
theorem exportText_ne_nil_iff {v : Option Bytes} (hv : ∀ b, v = some b → (0 : UInt8) ∉ b) :
    exportText v ≠ [] ↔ HasText v := by
  cases v with
  | none => exact iff_of_true (List.cons_ne_nil _ _) trivial
  | some b =>
    have hb := hv b rfl
    rw [exportText, HasText]
    by_cases h0 : byteAt b 0 = 0
    · rw [if_pos h0]
      exact iff_of_true (List.cons_ne_nil _ _) (Or.inl ((byteAt_zero_iff hb).mp h0))
    · have hne : b ≠ [] := fun h => h0 ((byteAt_zero_iff hb).mpr h)
      by_cases h1 : byteAt b 0 = 1
      · rw [if_neg h0, if_pos h1]
        obtain ⟨c, s, rfl⟩ := List.exists_cons_of_ne_nil hne
        rw [byteAt, List.getD_cons_zero] at h1
        exact iff_of_true (List.cons_ne_nil _ _)
          (Or.inr ⟨c, List.mem_cons_self, by rw [h1]; rfl⟩)
      · rw [if_neg h0, if_neg h1, or_iff_right hne]
        have hflat : (strtoks isBreak b).flatten = b.filter (fun c => !isBreak c) :=
          strtoks_flatten hb
        have htokens : joinWords (strtoks isBreak b) = [] ↔ strtoks isBreak b = [] := by
          cases hws : strtoks isBreak b with
          | nil => exact iff_of_true rfl rfl
          | cons w ws =>
            have hw : w ≠ [] := tokensFrom_ne_nil (hws ▸ List.mem_cons_self)
            exact iff_of_false (fun h => hw (List.append_eq_nil_iff.mp h).1) (List.cons_ne_nil w ws)
        have hempty : strtoks isBreak b = [] ↔ b.filter (fun c => !isBreak c) = [] := by
          rw [← hflat, List.flatten_eq_nil_iff]
          constructor
          · intro h t ht
            rw [h] at ht
            cases ht
          · intro h
            by_contra hws
            obtain ⟨w, ws, hws⟩ := List.exists_cons_of_ne_nil hws
            have hw : w ∈ strtoks isBreak b := hws ▸ List.mem_cons_self
            exact tokensFrom_ne_nil hw (h w hw)
        rw [Ne, htokens, hempty, List.filter_eq_nil_iff]
        simp

/-- Nothing in a text ends a column or a line. -/
theorem mem_exportText {v : Option Bytes} (hv : ∀ b, v = some b → (0 : UInt8) ∉ b) {c : UInt8}
    (hc : c ∈ exportText v) : isColumnEnd c = false ∧ c ≠ 0 := by
  have hfixed : (∀ d ∈ nullText, isColumnEnd d = false ∧ d ≠ 0) ∧
      ∀ d ∈ trueText, isColumnEnd d = false ∧ d ≠ 0 := by
    unfold nullText trueText
    simp only [List.forall_mem_cons, List.not_mem_nil, false_imp_iff, implies_true, and_true]
    decide
  cases v with
  | none => exact hfixed.1 c hc
  | some b =>
    have hb := hv b rfl
    rw [exportText] at hc
    split_ifs at hc
    · exact hfixed.1 c hc
    · exact hfixed.2 c hc
    · have hwords : c = 32 ∨ c ∈ (strtoks isBreak b).flatten := by
        cases hws : strtoks isBreak b with
        | nil =>
          rw [hws] at hc
          cases hc
        | cons w ws =>
          rw [hws] at hc
          unfold joinWords at hc
          rcases List.mem_append.mp hc with hc | hc
          · exact Or.inr (List.mem_flatten.mpr ⟨w, List.mem_cons_self, hc⟩)
          · obtain ⟨u, hu, hc⟩ := List.mem_flatMap.mp hc
            rcases List.mem_append.mp hc with hc | hc
            · exact Or.inr (List.mem_flatten.mpr ⟨u, List.mem_cons_of_mem w hu, hc⟩)
            · exact Or.inl (List.mem_singleton.mp hc)
      rcases hwords with rfl | hc
      · decide
      · rw [strtoks_flatten hb] at hc
        obtain ⟨hcb, hbreak⟩ := List.mem_filter.mp hc
        refine ⟨?_, fun h => hb (h ▸ hcb)⟩
        unfold isBreak at hbreak
        unfold isColumnEnd
        simp only [Bool.not_eq_true', Bool.or_eq_false_iff] at hbreak
        rw [hbreak.1.1, hbreak.2]
        rfl

/-! ### The file written -/

/-- The line of a row, without the newline. -/
def Row.columns {n : ℕ} (row : Row n) : Bytes :=
  (row.fields.map exportText).flatMap (· ++ [9])

/-- Fields that the exporter's buffer holds. -/
def CapFits (cap : Bytes → ℕ) (v : Option Bytes) : Prop :=
  ∀ b, v = some b → byteAt b 0 ≠ 0 → byteAt b 0 ≠ 1 → fieldWidth v + 1 ≤ cap b

variable {n : ℕ} {cap : Bytes → ℕ}

theorem Row.mem_noNul {row : Row n} {v : Option Bytes} (hv : v ∈ row.fields) :
    ∀ b, v = some b → (0 : UInt8) ∉ b :=
  fun b h => row.noNul b (h ▸ hv)

theorem fieldText_eq_some (hcap : ∀ b, 1 ≤ cap b) {v : Option Bytes}
    (hv : ∀ b, v = some b → (0 : UInt8) ∉ b) {t : Bytes} :
    fieldText cap v = some t ↔ CapFits cap v ∧ t = exportText v := by
  have hsome : ∀ {u : Bytes}, CapFits cap v → (some u = some t ↔ CapFits cap v ∧ t = u) := by
    intro u hfits
    exact ⟨fun h => ⟨hfits, (Option.some_inj.mp h).symm⟩, fun h => h.2 ▸ rfl⟩
  have hlen := exportText_length hv
  cases v with
  | none =>
    rw [fieldText, exportText]
    exact hsome fun b hb => absurd hb (Option.some_ne_none b).symm
  | some b =>
    rw [fieldText, exportText]
    rw [exportText] at hlen
    by_cases h0 : byteAt b 0 = 0
    · rw [if_pos h0, if_pos h0]
      refine hsome fun b' hb' h0' _ => absurd h0 ?_
      exact Option.some_inj.mp hb' ▸ h0'
    · by_cases h1 : byteAt b 0 = 1
      · rw [if_neg h0, if_neg h0, if_pos h1, if_pos h1]
        refine hsome fun b' hb' _ h1' => absurd h1 ?_
        exact Option.some_inj.mp hb' ▸ h1'
      · rw [if_neg h0, if_neg h1] at hlen
        rw [if_neg h0, if_neg h0, if_neg h1, if_neg h1, copyWords_eq_some (hcap b)]
        refine and_congr_left fun ht => ?_
        rw [ht, hlen]
        constructor
        · intro hroom b' hb' _ _
          exact Option.some_inj.mp hb' ▸ hroom
        · intro hfits
          exact hfits b rfl h0 h1

/-- A `mapM` whose steps succeed under a condition. -/
theorem mapM_eq_some {α β : Type} {f : α → Option β} {p : α → Prop} {g : α → β} {l : List α}
    (h : ∀ a ∈ l, ∀ b, f a = some b ↔ p a ∧ b = g a) {bs : List β} :
    l.mapM f = some bs ↔ (∀ a ∈ l, p a) ∧ bs = l.map g := by
  induction l generalizing bs with
  | nil => simp [eq_comm]
  | cons a l ih =>
    have hrest : ∀ cs, l.mapM f = some cs ↔ (∀ x ∈ l, p x) ∧ cs = l.map g :=
      fun cs => ih fun x hx => h x (List.mem_cons_of_mem a hx)
    have ha := h a List.mem_cons_self
    rw [List.mapM_cons, Option.bind_eq_bind, Option.bind_eq_some_iff]
    simp only [Option.bind_eq_bind, Option.bind_eq_some_iff, ha, hrest, List.forall_mem_cons,
      List.map_cons]
    constructor
    · rintro ⟨b, ⟨hpa, rfl⟩, cs, ⟨hpl, rfl⟩, hbs⟩
      exact ⟨⟨hpa, hpl⟩, (Option.some_inj.mp hbs).symm⟩
    · rintro ⟨⟨hpa, hpl⟩, rfl⟩
      exact ⟨g a, ⟨hpa, rfl⟩, l.map g, ⟨hpl, rfl⟩, rfl⟩

theorem rowLine_eq_some (hcap : ∀ b, 1 ≤ cap b) {row : Row n} {line : Bytes} :
    rowLine cap row = some line ↔
      (∀ v ∈ row.fields, CapFits cap v) ∧ line = row.columns ++ [10] := by
  have hfields : ∀ texts, row.fields.mapM (fieldText cap) = some texts ↔
      (∀ v ∈ row.fields, CapFits cap v) ∧ texts = row.fields.map exportText :=
    fun texts => mapM_eq_some fun v hv t => fieldText_eq_some hcap (Row.mem_noNul hv)
  unfold rowLine Row.columns
  rw [Option.bind_eq_bind, Option.bind_eq_some_iff]
  simp only [hfields]
  constructor
  · rintro ⟨texts, ⟨hfits, rfl⟩, hline⟩
    exact ⟨hfits, (Option.some_inj.mp hline).symm⟩
  · rintro ⟨hfits, rfl⟩
    exact ⟨row.fields.map exportText, ⟨hfits, rfl⟩, rfl⟩

/-- The file is the lines of the rows, where the exporter's buffers hold all fields. -/
theorem exportTable_eq_some (hcap : ∀ b, 1 ≤ cap b) {table : List (Row n)} {file : Bytes} :
    exportTable cap table = some file ↔
      (∀ row ∈ table, ∀ v ∈ row.fields, CapFits cap v) ∧
        file = (table.map Row.columns).flatMap (· ++ [10]) := by
  have hrows : ∀ lines, table.mapM (rowLine cap) = some lines ↔
      (∀ row ∈ table, ∀ v ∈ row.fields, CapFits cap v) ∧
        lines = table.map fun row => row.columns ++ [10] :=
    fun lines => mapM_eq_some fun row _ line => rowLine_eq_some hcap
  have hflat : (table.map fun row => row.columns ++ [10]).flatten =
      (table.map Row.columns).flatMap (· ++ [10]) := by
    rw [List.flatMap_map]
    rfl
  unfold exportTable
  rw [Option.bind_eq_bind, Option.bind_eq_some_iff]
  simp only [hrows]
  constructor
  · rintro ⟨lines, ⟨hfits, rfl⟩, hfile⟩
    exact ⟨hfits, (Option.some_inj.mp hfile).symm.trans hflat⟩
  · rintro ⟨hfits, rfl⟩
    exact ⟨_, ⟨hfits, rfl⟩, congrArg some hflat⟩

theorem mem_columns {row : Row n} {c : UInt8} (hc : c ∈ row.columns) : c ≠ 10 ∧ c ≠ 0 := by
  obtain ⟨t, ht, hc⟩ := List.mem_flatMap.mp hc
  obtain ⟨v, hv, rfl⟩ := List.mem_map.mp ht
  rcases List.mem_append.mp hc with hc | hc
  · obtain ⟨hend, h0⟩ := mem_exportText (Row.mem_noNul hv) hc
    refine ⟨fun h => ?_, h0⟩
    rw [h] at hend
    exact absurd hend (by decide)
  · rw [List.mem_singleton.mp hc]
    decide

theorem columns_length (row : Row n) :
    row.columns.length = (row.fields.map fun v => fieldWidth v + 1).sum := by
  unfold Row.columns
  rw [List.length_flatMap, List.map_map]
  congr 1
  apply List.map_congr_left
  intro v hv
  rw [Function.comp_apply, List.length_append, List.length_singleton,
    exportText_length (Row.mem_noNul hv)]

/-- What the reader binds for a line: the texts that are not empty. -/
theorem strtoks_columns (row : Row n) :
    strtoks isColumnEnd (row.columns ++ [10]) =
      (row.fields.map exportText).filter fun t => !t.isEmpty := by
  have hnul : (0 : UInt8) ∉ row.columns ++ [10] := by
    intro h
    rcases List.mem_append.mp h with h | h
    · exact (mem_columns h).2 rfl
    · exact absurd (List.mem_singleton.mp h) (by decide)
  have htexts : ∀ t ∈ row.fields.map exportText, ∀ c ∈ t, isColumnEnd c = false := by
    intro t ht c hc
    obtain ⟨v, hv, rfl⟩ := List.mem_map.mp ht
    exact (mem_exportText (Row.mem_noNul hv) hc).1
  rw [strtoks, text_of_noNul hnul, Row.columns, tokensFrom_columns htexts (by decide)]
  exact List.append_nil _

theorem strtoks_columns_eq_iff (row : Row n) :
    strtoks isColumnEnd (row.columns ++ [10]) = row.fields.map exportText ↔
      ∀ v ∈ row.fields, HasText v := by
  rw [strtoks_columns, List.filter_eq_self, List.forall_mem_map]
  refine forall₂_congr fun v hv => ?_
  rw [← exportText_ne_nil_iff (Row.mem_noNul hv)]
  simp

/-! ### The file read -/

theorem insertRows_eq_iff {params : ℕ} {buffers : List Bytes}
    (hbuf : ∀ b ∈ buffers, byteAt b 0 ≠ 0) {rows : List (List Bytes)} :
    insertRows params buffers = (rows, false) ↔
      (∀ b ∈ buffers, (strtoks isColumnEnd b).length ≤ params) ∧
        rows = buffers.map (strtoks isColumnEnd) := by
  induction buffers generalizing rows with
  | nil =>
    rw [insertRows]
    simp [eq_comm]
  | cons b buffers ih =>
    have hrest : ∀ rows, insertRows params buffers = (rows, false) ↔
        (∀ b ∈ buffers, (strtoks isColumnEnd b).length ≤ params) ∧
          rows = buffers.map (strtoks isColumnEnd) :=
      fun rows => ih fun x hx => hbuf x (List.mem_cons_of_mem b hx)
    rw [insertRows, if_neg (hbuf b List.mem_cons_self), List.forall_mem_cons, List.map_cons]
    by_cases hmany : params < (strtoks isColumnEnd b).length
    · rw [if_pos hmany]
      constructor
      · intro h
        cases h
      · rintro ⟨⟨hle, _⟩, _⟩
        omega
    · rw [if_neg hmany]
      constructor
      · intro h
        rw [Prod.mk.injEq] at h
        obtain ⟨hle, hrows⟩ := (hrest _).mp (Prod.ext rfl h.2)
        exact ⟨⟨by omega, hle⟩, h.1.symm.trans (congrArg (List.cons _) hrows)⟩
      · rintro ⟨⟨_, hle⟩, rfl⟩
        rw [(hrest _).mpr ⟨hle, rfl⟩]

theorem lines_noNewline {table : List (Row n)} {l : Bytes} (hl : l ∈ table.map Row.columns) :
    (10 : UInt8) ∉ l := by
  obtain ⟨row, _, rfl⟩ := List.mem_map.mp hl
  exact fun h => (mem_columns h).1 rfl

theorem lines_noNul (table : List (Row n)) :
    (0 : UInt8) ∉ (table.map Row.columns).flatMap (· ++ [10]) := by
  intro h
  obtain ⟨l, hl, hc⟩ := List.mem_flatMap.mp h
  obtain ⟨row, _, rfl⟩ := List.mem_map.mp hl
  rcases List.mem_append.mp hc with hc | hc
  · exact (mem_columns hc).2 rfl
  · exact absurd (List.mem_singleton.mp hc) (by decide)

/-- Lines that fit the buffer of the reader are read one at a time. -/
theorem fgetsAll_table {table : List (Row n)}
    (hfits : ∀ row ∈ table, row.columns.length + 1 ≤ 8191) :
    fgetsAll 8192 ((table.map Row.columns).flatMap (· ++ [10])) =
      table.map fun row => row.columns ++ [10] := by
  have hlines : ∀ l ∈ table.map Row.columns, (10 : UInt8) ∉ l ∧ l.length + 1 ≤ 8192 - 1 := by
    intro l hl
    refine ⟨lines_noNewline hl, ?_⟩
    obtain ⟨row, hrow, rfl⟩ := List.mem_map.mp hl
    exact hfits row hrow
  rw [fgetsAll_lines hlines, List.map_map]
  rfl

/-- Each row comes back exactly when none has a column without text and every line fits. -/
theorem lcsInsertGeneral_eq_iff {table : List (Row n)} :
    lcsInsertGeneral n ((table.map Row.columns).flatMap (· ++ [10])) =
        (table.map fun row => row.fields.map exportText, false) ↔
      ∀ row ∈ table, RowFits row := by
  unfold lcsInsertGeneral
  rw [insertRows_eq_iff fun b hb => fgetsAll_byteAt (lines_noNul table) hb]
  constructor
  · rintro ⟨_, hrows⟩
    have hcount := congrArg List.length hrows
    rw [List.length_map, List.length_map] at hcount
    have hwidth : ∀ row ∈ table, row.columns.length + 1 ≤ 8191 := by
      intro row hrow
      have hall := (piecesFrom_lines (n := 8191) (by omega) fun l hl => lines_noNewline hl).2
        (by rw [List.length_map]; exact hcount.symm)
      exact hall _ (List.mem_map_of_mem hrow)
    rw [fgetsAll_table hwidth, List.map_map] at hrows
    intro row hrow
    have hsame : row.fields.map exportText = strtoks isColumnEnd (row.columns ++ [10]) :=
      List.map_inj_left.mp hrows row hrow
    exact ⟨(strtoks_columns_eq_iff row).mp hsame.symm, columns_length row ▸ hwidth row hrow⟩
  · intro hfits
    have htokens : ∀ row ∈ table,
        strtoks isColumnEnd (row.columns ++ [10]) = row.fields.map exportText :=
      fun row hrow => (strtoks_columns_eq_iff row).mpr (hfits row hrow).hasText
    rw [fgetsAll_table fun row hrow => columns_length row ▸ (hfits row hrow).width]
    constructor
    · intro b hb
      obtain ⟨row, hrow, rfl⟩ := List.mem_map.mp hb
      rw [htokens row hrow, List.length_map, row.length_eq]
    · rw [List.map_map]
      exact List.map_congr_left fun row hrow => (htokens row hrow).symm

theorem roundTrip_iff (hcap : ∀ b, 1 ≤ cap b) {table : List (Row n)} :
    RoundTrip (exportTable cap) table ↔
      (∀ row ∈ table, ∀ v ∈ row.fields, CapFits cap v) ∧ ∀ row ∈ table, RowFits row := by
  unfold RoundTrip
  simp only [exportTable_eq_some hcap]
  constructor
  · rintro ⟨_, ⟨hfits, rfl⟩, hread⟩
    exact ⟨hfits, lcsInsertGeneral_eq_iff.mp hread⟩
  · rintro ⟨hfits, hrows⟩
    exact ⟨_, ⟨hfits, rfl⟩, lcsInsertGeneral_eq_iff.mpr hrows⟩

/-! ### The two exporters -/

theorem wordStarts_le (inWord : Bool) (s : Bytes) :
    s.countP (fun c => !isBreak c) + wordStarts inWord s ≤
      s.length + if inWord then 0 else 1 := by
  induction s generalizing inWord with
  | nil => exact Nat.zero_le _
  | cons c s ih =>
    have hword := ih true
    have hbreak := ih false
    rw [if_pos rfl] at hword
    rw [if_neg Bool.false_ne_true] at hbreak
    rw [wordStarts, List.countP_cons, List.length_cons]
    by_cases hc : isBreak c = true
    · rw [if_pos hc, if_neg (by rw [hc]; exact Bool.false_ne_true)]
      omega
    · rw [if_neg hc, if_pos (by rw [Bool.not_eq_true] at hc; rw [hc]; rfl)]
      omega

/-- The buffer that is as long as the field is always long enough. -/
theorem capFits_length (v : Option Bytes) : CapFits (fun b => b.length + 50) v := by
  rintro b rfl h0 h1
  have hle := wordStarts_le false b
  rw [fieldWidth, if_neg (not_or_intro h0 h1)]
  rw [if_neg Bool.false_ne_true] at hle
  show _ ≤ b.length + 50
  omega

theorem capFits_const_iff (v : Option Bytes) : CapFits (fun _ => 4097) v ↔ fieldWidth v ≤ 4096 := by
  cases v with
  | none =>
    refine iff_of_true (fun b hb => absurd hb (Option.some_ne_none b).symm) ?_
    rw [fieldWidth]
    omega
  | some b =>
    constructor
    · intro hfits
      by_cases h : byteAt b 0 = 0 ∨ byteAt b 0 = 1
      · rw [fieldWidth, if_pos h]
        omega
      · exact Nat.le_of_succ_le_succ
          (hfits b rfl (fun h0 => h (Or.inl h0)) (fun h1 => h (Or.inr h1)))
    · intro hle b' hb' _ _
      cases hb'
      exact Nat.succ_le_succ hle

/-- A table comes back as it was exported if and only if every column has a text and every
line fits the reader's buffer; where the exporter's buffer is fixed, every text has to fit
that one as well. -/
theorem export_import_iff (table : List (Row n)) :
    (RoundTrip lcsTryFetchFile table ↔
      ∀ row ∈ table, RowFits row ∧ ∀ v ∈ row.fields, fieldWidth v ≤ 4096) ∧
    (RoundTrip historyExport table ↔ ∀ row ∈ table, RowFits row) := by
  constructor
  · apply (roundTrip_iff fun _ => by omega).trans
    simp only [capFits_const_iff]
    exact ⟨fun h row hrow => ⟨h.2 row hrow, h.1 row hrow⟩,
      fun h => ⟨fun row hrow => (h row hrow).2, fun row hrow => (h row hrow).1⟩⟩
  · apply (roundTrip_iff fun _ => by omega).trans
    exact and_iff_right fun row _ v _ => capFits_length v

theorem tabFields_noNul (v : Bytes) (hv : some v ∈ [some [9], some ([97] : Bytes)]) :
    (0 : UInt8) ∉ v := by
  simp only [List.mem_cons, Option.some_inj, List.not_mem_nil, or_false] at hv
  rcases hv with rfl | rfl <;> decide

/-- A row of a tab and of `"a"`. -/
def tabRow : Row 2 := ⟨[some [9], some [97]], rfl, tabFields_noNul⟩

/-- The tab is lost and `"a"` is bound as the first value. -/
theorem export_import_shifts :
    (∃ file, lcsTryFetchFile [tabRow] = some file ∧ historyExport [tabRow] = some file ∧
      lcsInsertGeneral 2 file = ([[[97]]], false)) ∧
    ¬ RoundTrip lcsTryFetchFile [tabRow] ∧ ¬ RoundTrip historyExport [tabRow] := by
  have hlost : ∃ file, lcsTryFetchFile [tabRow] = some file ∧
      historyExport [tabRow] = some file ∧ lcsInsertGeneral 2 file = ([[[97]]], false) :=
    ⟨[9, 97, 9, 10], by decide, by decide, by decide⟩
  obtain ⟨file, htry, hhistory, hread⟩ := hlost
  refine ⟨⟨file, htry, hhistory, hread⟩, ?_, ?_⟩
  · rintro ⟨file', hfile', hread'⟩
    rw [htry] at hfile'
    cases hfile'
    rw [hread] at hread'
    exact absurd hread' (by decide)
  · rintro ⟨file', hfile', hread'⟩
    rw [hhistory] at hfile'
    cases hfile'
    rw [hread] at hread'
    exact absurd hread' (by decide)

end MemoryLeak.Cluster
