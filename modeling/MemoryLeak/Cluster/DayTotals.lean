import MemoryLeak.CText
import Mathlib.Algebra.GroupWithZero.Nat

/-!
# The disposition totals of a day

`lcs_hcollect_ana` and `lcs_hcollect_sum` of `A_000001_day`. A key is read up to its first blank and
looked up as the beginning of an entry of `lcs_arr_key`, so that `NO` stands for `NO ANSWER`.

An hour is the text that `lcs_file_text` returns. Its size is an `unsigned int` and one byte more is
allocated, so that it is the whole file below `2 ^ 32 - 1` bytes.
-/
namespace MemoryLeak.Cluster.Totals
open MemoryLeak.CBytes MemoryLeak.CText

/-! ### The program -/

/-- The entries of `lcs_arr_key`, up to the null one. -/
inductive Disposition where
  | answered
  | busy
  | failed
  | noAnswer
deriving DecidableEq

def Disposition.text : Disposition → Bytes
  | .answered => [65, 78, 83, 87, 69, 82, 69, 68]
  | .busy => [66, 85, 83, 89]
  | .failed => [70, 65, 73, 76, 69, 68]
  | .noAnswer => [78, 79, 32, 65, 78, 83, 87, 69, 82]

def lcsArrKey : List Disposition := [.answered, .busy, .failed, .noAnswer]

/-- One of `"\r\n"`. -/
def isLineEnd (c : UInt8) : Bool := c = 13 || c = 10

/-- `sscanf(pch, "%lu\t%s\t", &count, tmp)`, where both are 0 before; a word that does not fit in
`char tmp[64]` has no outcome. -/
def scanCount (pch : Bytes) : Option (ℕ × Bytes) :=
  match scanLu pch with
  | none => some (0, [])
  | some count =>
    let rest := (scanSign (pch.dropWhile isSpace)).2.dropWhile isDigit
    let tmp := (rest.dropWhile isSpace).takeWhile fun c => !isSpace c
    if tmp.length < 64 then some (count, tmp) else none

/-- The first entry that starts with `tmp`, where `strstr` finds it at its start. -/
def keyIndex (tmp : Bytes) : Option ℕ := lcsArrKey.findIdx? fun key => tmp.isPrefixOf key.text

/-- `lcs_arr_count` after a line. -/
def addLine (arr : List ℕ) (pch : Bytes) : Option (List ℕ) := do
  let (count, tmp) ← scanCount pch
  if tmp = [] then some arr
  else
    match keyIndex tmp with
    | none => some arr
    | some j => some (arr.modify j fun x => (x + count) % 4294967296)

def lcsHcollectSum (arr : List ℕ) (text : Bytes) : Option (List ℕ) :=
  (strtoks isLineEnd text).foldlM addLine arr

/-- `"%u\t%s\n"` for each entry. -/
def dayLines (arr : List ℕ) : Bytes :=
  (lcsArrKey.zip arr).flatMap fun e => natDec e.2 ++ 9 :: (e.1.text ++ [10])

/-- The turn for an hour; `lcs_file_text` has no text where there is no file. -/
def addHour (arr : List ℕ) : Option Bytes → Option (List ℕ)
  | none => some arr
  | some file => if text file = [] then some arr else lcsHcollectSum arr file

/-- The file written, from the texts of the hours. -/
def lcsHcollectAna (hours : List (Option Bytes)) : Option Bytes := do
  let arr ← hours.foldlM addHour (List.replicate 5 0)
  some (dayLines arr)

/-! ### Files of counts -/

/-- A line `count TAB key`; the count is an `unsigned long`. -/
structure CountLine where
  digits : Bytes
  nonempty : digits ≠ []
  isDigits : ∀ c ∈ digits, isDigit c = true
  fits : digitsVal digits < 18446744073709551616
  key : Disposition

def CountLine.count (l : CountLine) : ℕ := digitsVal l.digits

def CountLine.text (l : CountLine) : Bytes := l.digits ++ 9 :: l.key.text

/-- An hour without a file has no lines; those of a file are what its line ends part. -/
def HourOf : Option Bytes → List CountLine → Prop
  | none, ls => ls = []
  | some file, ls => strtoks isLineEnd file = ls.map CountLine.text

/-- The sum of the counts of a key. -/
def total (ls : List CountLine) (k : Disposition) : ℕ :=
  ((ls.filter fun l => l.key = k).map CountLine.count).sum

/-- The counters after some lines. -/
def counters (ls : List CountLine) : List ℕ :=
  lcsArrKey.map (fun k => total ls k % 4294967296) ++ [0]

theorem counters_nil : counters [] = List.replicate 5 0 := by
  simp [counters, total, lcsArrKey, List.replicate]

/-- What `%s` takes of a key. -/
def Disposition.word (k : Disposition) : Bytes := k.text.takeWhile fun c => !isSpace c

theorem scanCount_text (l : CountLine) : scanCount l.text = some (l.count, l.key.word) := by
  obtain ⟨hdrop, hsign⟩ := scanSign_digits l.nonempty l.isDigits (9 :: l.key.text)
  obtain ⟨htake, hrest⟩ := takeWhile_digits l.isDigits (show isDigit 9 = false by decide) l.key.text
  have hscan : scanLu l.text = some l.count := by
    have hfits := l.fits
    simp only [scanLu, CountLine.text, hdrop, hsign, htake, if_neg l.nonempty]
    rw [if_neg (by omega)]
    rfl
  have hword : ((9 :: l.key.text).dropWhile isSpace).takeWhile (fun c => !isSpace c) = l.key.word ∧
      l.key.word.length < 64 := by
    cases l.key <;> decide
  simp only [scanCount, hscan]
  rw [CountLine.text, hdrop, hsign, hrest, hword.1, if_pos hword.2]

/-- Where a key stands in the table. -/
def Disposition.index : Disposition → ℕ
  | .answered => 0
  | .busy => 1
  | .failed => 2
  | .noAnswer => 3

/-- A key is found by its first word. -/
theorem keyIndex_word (k : Disposition) : k.word ≠ [] ∧ keyIndex k.word = some k.index := by
  cases k <;> decide

theorem total_snoc (ls : List CountLine) (l : CountLine) (k : Disposition) :
    total (ls ++ [l]) k = total ls k + if l.key = k then l.count else 0 := by
  rw [total, total, List.filter_append, List.map_append, List.sum_append]
  by_cases hk : l.key = k
  · simp [hk]
  · simp [hk]

/-- A line adds its count to the counter of its key. -/
theorem addLine_counters (ls : List CountLine) (l : CountLine) :
    addLine (counters ls) l.text = some (counters (ls ++ [l])) := by
  obtain ⟨hne, hindex⟩ := keyIndex_word l.key
  simp only [addLine, scanCount_text, bind, Option.bind_some, if_neg hne, hindex, Option.some.injEq]
  simp only [counters, total_snoc, lcsArrKey, List.map_cons, List.map_nil, List.cons_append,
    List.nil_append]
  cases l.key <;> simp [Disposition.index]

theorem addLines_counters (seen ls : List CountLine) :
    (ls.map CountLine.text).foldlM addLine (counters seen) = some (counters (seen ++ ls)) := by
  induction ls generalizing seen with
  | nil => rw [List.append_nil]; rfl
  | cons l ls ih =>
    have hassoc : seen ++ l :: ls = seen ++ [l] ++ ls := by simp
    rw [List.map_cons, List.foldlM_cons, addLine_counters, hassoc]
    exact ih (seen ++ [l])

theorem addHour_counters (seen : List CountLine) {hour : Option Bytes} {ls : List CountLine}
    (h : HourOf hour ls) : addHour (counters seen) hour = some (counters (seen ++ ls)) := by
  cases hour with
  | none =>
    obtain rfl : ls = [] := h
    rw [List.append_nil]
    rfl
  | some file =>
    have hlines : strtoks isLineEnd file = ls.map CountLine.text := h
    rw [addHour]
    by_cases hempty : text file = []
    · have hnone : ls.map CountLine.text = [] := by rw [← hlines, strtoks, hempty]; rfl
      rw [if_pos hempty, List.map_eq_nil_iff.mp hnone, List.append_nil]
    · rw [if_neg hempty, lcsHcollectSum, hlines]
      exact addLines_counters seen ls

theorem addHours_counters (seen : List CountLine) {hours : List (Option Bytes)}
    {lines : List (List CountLine)} (h : List.Forall₂ HourOf hours lines) :
    hours.foldlM addHour (counters seen) = some (counters (seen ++ lines.flatten)) := by
  induction h generalizing seen with
  | nil => rw [List.flatten_nil, List.append_nil]; rfl
  | cons hhour _ ih =>
    rw [List.foldlM_cons, addHour_counters seen hhour, List.flatten_cons, ← List.append_assoc]
    exact ih _

theorem dayLines_counters (ls : List CountLine) :
    dayLines (counters ls) = lcsArrKey.flatMap fun k =>
      natDec (total ls k % 4294967296) ++ 9 :: (k.text ++ [10]) := by
  simp [dayLines, counters, lcsArrKey]

/-- The line for each key has the sum of its counts over all hours, modulo 2^32. -/
theorem day_totals {hours : List (Option Bytes)} {lines : List (List CountLine)}
    (h : List.Forall₂ HourOf hours lines) :
    lcsHcollectAna hours = some (lcsArrKey.flatMap fun k =>
      natDec (total lines.flatten k % 4294967296) ++ 9 :: (k.text ++ [10])) := by
  have hrun := addHours_counters [] h
  rw [counters_nil, List.nil_append] at hrun
  rw [lcsHcollectAna, hrun, ← dayLines_counters]
  rfl

theorem key_plain (k : Disposition) : ∀ c ∈ 9 :: k.text, isLineEnd c = false ∧ c ≠ 0 := by
  cases k <;> simp [Disposition.text, isLineEnd]

theorem text_isToken (l : CountLine) : IsToken isLineEnd l.text := by
  refine ⟨by simp [CountLine.text], fun c hc => ?_⟩
  rcases List.mem_append.mp hc with hc | hc
  · have hdigit := l.isDigits c hc
    constructor
    · cases hend : isLineEnd c with
      | false => rfl
      | true =>
        simp only [isLineEnd, Bool.or_eq_true, decide_eq_true_eq] at hend
        rcases hend with rfl | rfl
        · cases hdigit
        · cases hdigit
    · rintro rfl
      cases hdigit
  · exact key_plain l.key c hc

/-- Lines with a newline behind each. -/
theorem hourOf_newlines (ls : List CountLine) :
    HourOf (some (ls.flatMap fun l => l.text ++ [10])) ls := by
  have hlines := @strtoks_lines isLineEnd (ls.map fun l => [l.text])
    (by simpa using fun l _ => text_isToken l) 10 10 rfl rfl (by decide) (by decide)
  simp only [List.flatMap_map, List.intercalate_singleton] at hlines
  exact hlines.trans List.map_eq_flatMap.symm

/-- 5 calls without an answer. -/
def fiveUnanswered : CountLine := ⟨[53], by decide, by simp [isDigit], by decide, .noAnswer⟩

/-- As many as an `unsigned int` can count. -/
def manyUnanswered : CountLine :=
  ⟨[52, 50, 57, 52, 57, 54, 55, 50, 57, 53], by decide, by simp [isDigit], by decide, .noAnswer⟩

/-- 7 calls to a busy line. -/
def sevenBusy : CountLine := ⟨[55], by decide, by simp [isDigit], by decide, .busy⟩

theorem day_totals_sample :
    lcsHcollectAna [some ([fiveUnanswered, sevenBusy].flatMap fun l => l.text ++ [10]), none,
        some ([manyUnanswered].flatMap fun l => l.text ++ [10])] =
      some (lcsArrKey.flatMap fun k =>
        natDec (total [fiveUnanswered, sevenBusy, manyUnanswered] k % 4294967296) ++
          9 :: (k.text ++ [10])) :=
  @day_totals _ [[fiveUnanswered, sevenBusy], [], [manyUnanswered]]
    (.cons (hourOf_newlines _) (.cons rfl (.cons (hourOf_newlines _) .nil)))

example : total [fiveUnanswered, sevenBusy, manyUnanswered] .noAnswer % 4294967296 = 4 := by decide

end MemoryLeak.Cluster.Totals
