import MemoryLeak.Log.Levels
import Mathlib.Data.List.DropRight

/-!
# Patterns of log messages

A pattern is a C string that is read once from left to right, and each conversion in it is
written to the buffer first and padded there afterwards. The pieces below say what a pattern
means. A pattern that is not made of such pieces is read beyond its end.
-/
namespace MemoryLeak.Log
open MemoryLeak.CBytes MemoryLeak.CText

/-- What a message is formatted with, besides the pattern. -/
structure LogCall where
  module : VlogModule
  level : VlogLevel
  /-- The message with its arguments put in. -/
  message : Bytes

/-- What the rest of the process provides. -/
structure LogEnv where
  programName : Bytes
  logFacility : ℕ
  hostName : Bytes
  msgNum : ℕ
  pid : ℕ
  /-- `time_msec() - time_boot_msec()`. -/
  elapsed : ℤ
  subprogramName : Bytes
  /-- `ds_put_strftime_msec` of the current time, as UTC or not. -/
  strftimeMsec : Bytes → Bool → Bytes

/-! ### `format_log_message`

A pointer into the pattern is what is left of it, the terminator included. Beyond the terminator
nothing is left, and nothing can be read.
-/

/-- `fetch_braces` with a buffer of 128 bytes: the string in it and the rest. -/
def fetchBraces (p default : Bytes) : Option (Bytes × Bytes) :=
  match p with
  | [] => none
  | c :: q =>
    if c = 123 then
      let n := (q.takeWhile fun c => c != 125 && c != 0).length
      some (q.take (min n 127), q.drop (n + 1))
    else some (default.take 127, c :: q)

/-- `while (s->length > length && s->string[s->length - 1] == '\n') s->length--`. -/
def trimNewlines (length : ℕ) (s : Bytes) : Bytes :=
  if length < s.length ∧ s.getLast? = some 10 then trimNewlines length s.dropLast else s
termination_by s.length
decreasing_by
  rw [List.length_dropLast]
  omega

/-- The template of `%d` and `%D` without braces. -/
def defaultDate : Bytes := ascii "%Y-%m-%d %H:%M:%S.###"

/-- What a letter that takes no braces puts, `m` apart. -/
def plainText (env : LogEnv) (level : VlogLevel) (c : UInt8) : Bytes :=
  match Char.ofNat c.toNat with
  | 'A' => env.programName
  | 'B' => natDec ((if env.logFacility = 0 then 128 else env.logFacility) + syslogLevel level)
  | 'E' => env.hostName.take 127
  | 'N' => natDec env.msgNum
  | 'n' => [10]
  | 'p' => levelName level
  | 'P' => natDec env.pid
  | 'r' => printD env.elapsed
  | 't' => if env.subprogramName = [] then ascii "main" else env.subprogramName
  | 'T' => if env.subprogramName = [] then [] else 40 :: env.subprogramName ++ [41]
  | _ => [c]

/-- The `switch` of `format_log_message`: the rest of the pattern and the buffer. -/
def putConversion (env : LogEnv) (call : LogCall) (c : UInt8) (p s : Bytes) :
    Option (Bytes × Bytes) :=
  match Char.ofNat c.toNat with
  | 'c' => (fetchBraces p []).map fun (_, p) => (p, s ++ call.module.name)
  | 'd' => (fetchBraces p defaultDate).map fun (tmp, p) => (p, s ++ env.strftimeMsec tmp false)
  | 'D' => (fetchBraces p defaultDate).map fun (tmp, p) => (p, s ++ env.strftimeMsec tmp true)
  | 'm' => some (p, trimNewlines s.length (s ++ call.message))
  | _ => some (p, s ++ plainText env call.level c)

/-- What was written since `length` is padded to the field. On the right the bytes that
`ds_put_uninit` adds are all overwritten. The string gets the memory that it asks for, so that
`length + nPad` is below `2 ^ 64`. -/
def padField (left : Bool) (pad : UInt8) (field length : ℕ) (s : Bytes) : Bytes :=
  let used := s.length - length
  if used < field then
    let nPad := field - used
    if left then s ++ List.replicate nPad pad
    else
      let s := s ++ zeros nPad
      let s := memcpy s (length + nPad) ((s.drop length).take used)
      memcpy s length (List.replicate nPad pad)
  else s

/-- `field = field * 10 + (*p - '0')` for all the digits, in a `size_t`. -/
def fieldWidth (digits : Bytes) : ℕ :=
  digits.foldl (fun field c => (field * 10 + (c.toNat - 48)) % 2 ^ 64) 0

/-- `if (*p == c) p++`, and whether it was there. -/
def readFlag (c : UInt8) (p : Bytes) : Bool × Bytes :=
  if p.head? = some c then (true, p.tail) else (false, p)

/-- One conversion, from behind its `%`. -/
def conversion (env : LogEnv) (call : LogCall) (p s : Bytes) : Option (Bytes × Bytes) :=
  let left := readFlag 45 p
  let zero := readFlag 48 left.2
  match zero.2.dropWhile isDigit with
  | [] => none
  | c :: q =>
    (putConversion env call c q s).map fun (q, t) =>
      (q, padField left.1 (if zero.1 then 48 else 32) (fieldWidth (zero.2.takeWhile isDigit))
        s.length t)

/-- The loop of `format_log_message`, for a number of turns. -/
def formatFrom (env : LogEnv) (call : LogCall) : ℕ → Bytes → Bytes → Option Bytes
  | 0, _, _ => none
  | _ + 1, [], _ => none
  | turns + 1, c :: p, s =>
    if c = 0 then some s
    else if c = 37 then
      (conversion env call p s).bind fun (p, s) => formatFrom env call turns p s
    else formatFrom env call turns p (s ++ [c])

/-- `format_log_message`; `none` where the pattern is read beyond its end. -/
def formatLogMessage (env : LogEnv) (call : LogCall) (pattern : Bytes) : Option Bytes :=
  formatFrom env call (pattern.length + 1) (pattern ++ [0]) []

/-! ### Pieces of a pattern -/

/-- `c`, `d` and `D` take braces. -/
def takesBraces (c : UInt8) : Bool :=
  match Char.ofNat c.toNat with
  | 'c' | 'd' | 'D' => true
  | _ => false

def spellFlag (c : UInt8) (present : Bool) : Bytes := if present then [c] else []

def spellBraces (braces : Option Bytes) : Bytes := braces.elim [] fun b => 123 :: b ++ [125]

/-- The braces behind a letter, and no others can be taken for them. -/
structure BracesOk (letter : UInt8) (braces : Option Bytes) (rest : Bytes) : Prop where
  own : ∀ b ∈ braces, takesBraces letter = true ∧ (125 : UInt8) ∉ b ∧ (0 : UInt8) ∉ b
  other : takesBraces letter = true → braces = none → rest.head? ≠ some 123

/-- What a letter prints, before padding. -/
def letterText (env : LogEnv) (call : LogCall) (letter : UInt8) (braces : Option Bytes) : Bytes :=
  match Char.ofNat letter.toNat with
  | 'c' => call.module.name
  | 'd' => env.strftimeMsec ((braces.getD defaultDate).take 127) false
  | 'D' => env.strftimeMsec ((braces.getD defaultDate).take 127) true
  | 'm' => call.message.rdropWhile (· == 10)
  | _ => plainText env call.level letter

/-- A text padded to the field. -/
def padTo (left : Bool) (pad : UInt8) (field : ℕ) (text : Bytes) : Bytes :=
  let padding := List.replicate (field - text.length) pad
  if left then text ++ padding else padding ++ text

/-- A conversion as it is written. -/
structure Conversion where
  left : Bool
  zero : Bool
  field : Bytes
  letter : UInt8
  braces : Option Bytes

namespace Conversion

/-- What stands behind the `%`. -/
def spell (v : Conversion) : Bytes :=
  spellFlag 45 v.left ++ (spellFlag 48 v.zero ++ (v.field ++ v.letter :: spellBraces v.braces))

/-- No part of the conversion, in front of the rest, could be read as another part. -/
structure Ok (v : Conversion) (rest : Bytes) : Prop where
  field : ∀ c ∈ v.field, isDigit c = true
  fieldStart : v.zero = false → v.field.head? ≠ some 48
  letter : isDigit v.letter = false ∧ v.letter ≠ 0
  letterStart : v.left = false → v.zero = false → v.field = [] → v.letter ≠ 45
  braces : BracesOk v.letter v.braces rest

/-- What it prints. -/
def render (env : LogEnv) (call : LogCall) (v : Conversion) : Bytes :=
  padTo v.left (if v.zero then 48 else 32) (fieldWidth v.field)
    (letterText env call v.letter v.braces)

end Conversion

inductive Piece where
  | char (c : UInt8)
  | conversion (v : Conversion)

namespace Piece

def spell : Piece → Bytes
  | char c => [c]
  | conversion v => 37 :: v.spell

def render (env : LogEnv) (call : LogCall) : Piece → Bytes
  | char c => [c]
  | conversion v => v.render env call

/-- The piece reads as such in front of the rest. -/
def Ok (rest : Bytes) : Piece → Prop
  | char c => c ≠ 0 ∧ c ≠ 37
  | conversion v => v.Ok rest

end Piece

/-- The pattern that the pieces are the pieces of. -/
def spellPieces (pieces : List Piece) : Bytes := pieces.flatMap Piece.spell

/-- Each piece reads as such in front of the others. -/
def Readable : List Piece → Prop
  | [] => True
  | piece :: pieces => piece.Ok (spellPieces pieces) ∧ Readable pieces

/-! ### What the code writes -/

theorem trimNewlines_append (out text : Bytes) :
    trimNewlines out.length (out ++ text) = out ++ text.rdropWhile (· == 10) := by
  induction text using List.reverseRecOn with
  | nil => simp [trimNewlines]
  | append_singleton text c ih =>
    rw [trimNewlines]
    have hlast : (out ++ (text ++ [c])).getLast? = some c := by
      rw [← List.append_assoc, List.getLast?_append, List.getLast?_singleton, Option.some_or]
    have hlength : out.length < (out ++ (text ++ [c])).length := by simp
    by_cases hc : c = 10
    · rw [if_pos ⟨hlength, hlast.trans (congrArg some hc)⟩, ← List.append_assoc,
        List.dropLast_concat, ih, List.rdropWhile_concat_pos _ _ _ (by simp [hc])]
    · rw [if_neg (by simp [hlast, hc]), List.rdropWhile_concat_neg _ _ _ (by simp [hc])]

theorem padField_append (left : Bool) (pad : UInt8) (field : ℕ) (out text : Bytes) :
    padField left pad field out.length (out ++ text) = out ++ padTo left pad field text := by
  have hused : (out ++ text).length - out.length = text.length := by simp
  rw [padField, hused, padTo]
  by_cases hfield : text.length < field
  · rw [if_pos hfield]
    cases left with
    | true => simp
    | false =>
      have htext : (((out ++ text) ++ zeros (field - text.length)).drop out.length).take
          text.length = text := by simp
      have hlength : out.length + (field - text.length) ≤
          ((out ++ text) ++ zeros (field - text.length)).length := by simp
      simp only [Bool.false_eq_true, if_false, htext]
      rw [memcpy_memcpy_adjacent (by simp) hlength, memcpy,
        List.drop_eq_nil_of_le (by simp; omega)]
      simp
  · rw [if_neg hfield, Nat.sub_eq_zero_of_le (Nat.le_of_not_lt hfield)]
    cases left <;> simp

/-! ### Reading braces -/

theorem fetchBraces_spell {braces : Option Bytes} {rest : Bytes} (default : Bytes)
    (hown : ∀ b ∈ braces, (125 : UInt8) ∉ b ∧ (0 : UInt8) ∉ b)
    (hother : braces = none → rest.head? ≠ some 123) (hrest : rest ≠ []) :
    fetchBraces (spellBraces braces ++ rest) default =
      some ((braces.getD default).take 127, rest) := by
  cases braces with
  | none =>
    obtain ⟨c, q, rfl⟩ := List.exists_cons_of_ne_nil hrest
    have hc : c ≠ 123 := fun hc => hother rfl (by rw [hc, List.head?_cons])
    exact if_neg hc
  | some b =>
    obtain ⟨hclose, hnul⟩ := hown b rfl
    have hb : ∀ c ∈ b, (c != 125 && c != 0) = true := by
      intro c hc
      have h125 : c ≠ 125 := fun h => hclose (h ▸ hc)
      have h0 : c ≠ 0 := fun h => hnul (h ▸ hc)
      simp [h125, h0]
    have hspell : spellBraces (some b) ++ rest = 123 :: (b ++ 125 :: rest) := by
      simp [spellBraces]
    have htake : (b ++ 125 :: rest).takeWhile (fun c => c != 125 && c != 0) = b := by
      rw [List.takeWhile_append_of_pos hb, List.takeWhile_cons_of_neg (by simp), List.append_nil]
    have hdrop : (b ++ 125 :: rest).drop (b.length + 1) = rest := by
      rw [List.append_cons, List.drop_left' (by simp)]
    have htmp : (b ++ 125 :: rest).take (min b.length 127) = b.take 127 := by
      rw [List.take_append_of_le_length (Nat.min_le_left _ _), Nat.min_comm,
        ← List.take_eq_take_min]
    rw [hspell]
    simp only [fetchBraces, if_true, htake, hdrop, htmp, Option.getD_some]

theorem fetchBraces_eq {q default tmp p : Bytes} (hq : (0 : UInt8) ∉ q)
    (h : fetchBraces (q ++ [0]) default = some (tmp, p)) (hp : p ≠ []) :
    ∃ braces : Option Bytes, ∃ rest, q = spellBraces braces ++ rest ∧ p = rest ++ [0] ∧
      tmp = (braces.getD default).take 127 ∧
      (∀ b ∈ braces, (125 : UInt8) ∉ b ∧ (0 : UInt8) ∉ b) ∧
      (braces = none → p.head? ≠ some 123) := by
  by_cases hhead : (q ++ [0]).head? = some 123
  · obtain ⟨q, rfl⟩ : ∃ q', q = 123 :: q' := by
      cases q with
      | nil => cases hhead
      | cons c q => exact ⟨q, by rw [Option.some.inj hhead]⟩
    by_cases hclose : (125 : UInt8) ∈ q
    · obtain ⟨b, rest, rfl, hb⟩ := List.eq_append_cons_of_mem hclose
      have hown : ∀ b' ∈ some b, (125 : UInt8) ∉ b' ∧ (0 : UInt8) ∉ b' := by
        rintro b' ⟨⟩
        exact ⟨hb, fun h0 => hq (by simp [h0])⟩
      have hspell : 123 :: (b ++ 125 :: rest) ++ [0] = spellBraces (some b) ++ (rest ++ [0]) := by
        simp [spellBraces]
      rw [hspell, fetchBraces_spell default hown (by simp) (by simp)] at h
      cases h
      exact ⟨some b, rest, by simp [spellBraces], rfl, rfl, hown, by simp⟩
    · -- the braces are not closed, and the pointer ends up beyond the terminator
      have hall : (q ++ [0]).takeWhile (fun c => c != 125 && c != 0) = q := by
        rw [List.takeWhile_append_of_pos, List.takeWhile_cons_of_neg (by simp), List.append_nil]
        intro c hc
        have h125 : c ≠ 125 := fun h => hclose (h ▸ hc)
        have h0 : c ≠ 0 := fun h => hq (by simp [← h, hc])
        simp [h125, h0]
      have hdrop : (q ++ [0]).drop (q.length + 1) = [] := by simp
      simp only [List.cons_append, fetchBraces, if_true, hall, hdrop] at h
      cases h
      exact absurd rfl hp
  · have hspell : q ++ [0] = spellBraces none ++ (q ++ [0]) := rfl
    rw [hspell, fetchBraces_spell default (by simp) (fun _ => hhead) (by simp)] at h
    cases h
    exact ⟨none, q, rfl, rfl, rfl, by simp, fun _ => hhead⟩

/-! ### Reading one conversion -/

theorem putConversion_spell (env : LogEnv) (call : LogCall) {c : UInt8} {braces : Option Bytes}
    {rest : Bytes} (hok : BracesOk c braces rest) (hrest : rest ≠ []) (s : Bytes) :
    putConversion env call c (spellBraces braces ++ rest) s =
      some (rest, s ++ letterText env call c braces) := by
  have hfetch : takesBraces c = true → ∀ default,
      fetchBraces (spellBraces braces ++ rest) default =
        some ((braces.getD default).take 127, rest) :=
    fun hc default => fetchBraces_spell default (fun b hb => (hok.own b hb).2) (hok.other hc) hrest
  have hnone : takesBraces c = false → braces = none := by
    intro hc
    refine Option.eq_none_iff_forall_not_mem.mpr fun b hb => ?_
    rw [(hok.own b hb).1] at hc
    cases hc
  unfold putConversion letterText
  split
  · rw [hfetch (by simp [takesBraces, *])]
    rfl
  · rw [hfetch (by simp [takesBraces, *])]
    rfl
  · rw [hfetch (by simp [takesBraces, *])]
    rfl
  · rw [hnone (by simp [takesBraces, *]), trimNewlines_append]
    rfl
  · rw [hnone (by simp [takesBraces, *])]
    rfl

theorem putConversion_eq {env : LogEnv} {call : LogCall} {c : UInt8} {q p s t : Bytes}
    (hq : (0 : UInt8) ∉ q) (h : putConversion env call c (q ++ [0]) s = some (p, t))
    (hp : p ≠ []) : ∃ braces rest, q = spellBraces braces ++ rest ∧ p = rest ++ [0] ∧
      BracesOk c braces p ∧ t = s ++ letterText env call c braces := by
  -- with braces taken or not, the pieces are found and the text is that of the other direction
  suffices hparts : ∃ braces rest, q = spellBraces braces ++ rest ∧ p = rest ++ [0] ∧
      BracesOk c braces p by
    obtain ⟨braces, rest, rfl, rfl, hok⟩ := hparts
    rw [List.append_assoc, putConversion_spell env call hok hp] at h
    cases h
    exact ⟨braces, rest, rfl, rfl, hok, rfl⟩
  have hfetch : takesBraces c = true → ∀ default tmp,
      fetchBraces (q ++ [0]) default = some (tmp, p) →
      ∃ braces rest, q = spellBraces braces ++ rest ∧ p = rest ++ [0] ∧ BracesOk c braces p := by
    intro hc default tmp htmp
    obtain ⟨braces, rest, hspell, hrest, _, hown, hother⟩ := fetchBraces_eq hq htmp hp
    exact ⟨braces, rest, hspell, hrest, fun b hb => ⟨hc, hown b hb⟩, fun _ => hother⟩
  have hplain : takesBraces c = false → p = q ++ [0] →
      ∃ braces rest, q = spellBraces braces ++ rest ∧ p = rest ++ [0] ∧ BracesOk c braces p :=
    fun hc hpq => ⟨none, q, rfl, hpq, by simp, fun htrue => by simp [hc] at htrue⟩
  unfold putConversion at h
  split at h
  · obtain ⟨⟨tmp, _⟩, htmp, hpair⟩ := Option.map_eq_some_iff.mp h
    cases hpair
    exact hfetch (by simp [takesBraces, *]) _ tmp htmp
  · obtain ⟨⟨tmp, _⟩, htmp, hpair⟩ := Option.map_eq_some_iff.mp h
    cases hpair
    exact hfetch (by simp [takesBraces, *]) _ tmp htmp
  · obtain ⟨⟨tmp, _⟩, htmp, hpair⟩ := Option.map_eq_some_iff.mp h
    cases hpair
    exact hfetch (by simp [takesBraces, *]) _ tmp htmp
  · cases h
    exact hplain (by simp [takesBraces, *]) rfl
  · cases h
    exact hplain (by simp [takesBraces, *]) rfl

theorem readFlag_spell {c : UInt8} {present : Bool} {rest : Bytes}
    (h : present = false → rest.head? ≠ some c) :
    readFlag c (spellFlag c present ++ rest) = (present, rest) := by
  cases present with
  | true => exact if_pos rfl
  | false => exact if_neg (h rfl)

theorem readFlag_eq (c : UInt8) (p : Bytes) :
    p = spellFlag c (readFlag c p).1 ++ (readFlag c p).2 ∧
      ((readFlag c p).1 = false → (readFlag c p).2.head? ≠ some c) := by
  by_cases h : p.head? = some c
  · rw [readFlag, if_pos h]
    exact ⟨(List.cons_head?_tail h).symm, fun hfalse => by cases hfalse⟩
  · rw [readFlag, if_neg h]
    exact ⟨rfl, fun _ => h⟩

theorem conversion_spell (env : LogEnv) (call : LogCall) {v : Conversion} {rest : Bytes}
    (hok : v.Ok rest) (hrest : rest ≠ []) (s : Bytes) :
    conversion env call (v.spell ++ rest) s = some (rest, s ++ v.render env call) := by
  obtain ⟨hfield, hfieldStart, ⟨hletter, _⟩, hletterStart, hbraces⟩ := hok
  set behind := v.letter :: (spellBraces v.braces ++ rest) with hbehind
  have hspell : v.spell ++ rest =
      spellFlag 45 v.left ++ (spellFlag 48 v.zero ++ (v.field ++ behind)) := by
    simp [Conversion.spell, hbehind]
  have hzero : v.zero = false → (v.field ++ behind).head? ≠ some 48 := by
    intro hz
    cases hf : v.field with
    | nil =>
      intro hhead
      rw [Option.some.inj hhead] at hletter
      cases hletter
    | cons c field =>
      rw [hf] at hfieldStart
      exact hfieldStart hz
  have hleft : v.left = false → (spellFlag 48 v.zero ++ (v.field ++ behind)).head? ≠ some 45 := by
    intro hl
    cases hz : v.zero with
    | true => simp [spellFlag]
    | false =>
      cases hf : v.field with
      | nil => exact fun hhead => hletterStart hl hz hf (Option.some.inj hhead)
      | cons c field =>
        intro hhead
        have hc : c = 45 := Option.some.inj hhead
        have hdigit := hfield c (hf ▸ List.mem_cons_self)
        rw [hc] at hdigit
        cases hdigit
  have htake : (v.field ++ behind).takeWhile isDigit = v.field := by
    rw [List.takeWhile_append_of_pos hfield, hbehind,
      List.takeWhile_cons_of_neg (by simp [hletter]), List.append_nil]
  have hdrop : (v.field ++ behind).dropWhile isDigit = behind := by
    rw [List.dropWhile_append_of_pos hfield, hbehind,
      List.dropWhile_cons_of_neg (by simp [hletter])]
  rw [hspell]
  simp only [conversion, readFlag_spell hleft, readFlag_spell hzero, htake, hdrop]
  rw [hbehind]
  simp only [putConversion_spell env call hbraces hrest, Option.map_some, padField_append]
  rfl

/-- What is left of a terminated string is terminated. -/
theorem terminated_suffix {q front p : Bytes} (h : q ++ [0] = front ++ p) (hp : p ≠ []) :
    ∃ rest, p = rest ++ [0] ∧ q = front ++ rest := by
  rcases List.eq_nil_or_concat p with hnil | ⟨rest, c, rfl⟩
  · exact absurd hnil hp
  · rw [List.concat_eq_append, ← List.append_assoc] at h
    obtain ⟨hq, hc⟩ := List.append_inj' h rfl
    exact ⟨rest, by rw [List.concat_eq_append, hc], hq⟩

theorem putConversion_nil {env : LogEnv} {call : LogCall} {c : UInt8} {s t p : Bytes}
    (h : putConversion env call c [] s = some (p, t)) : p = [] := by
  unfold putConversion at h
  split at h
  · cases h
  · cases h
  · cases h
  · cases h
    rfl
  · cases h
    rfl

theorem conversion_eq {env : LogEnv} {call : LogCall} {q p s t : Bytes}
    (hq : (0 : UInt8) ∉ q) (h : conversion env call (q ++ [0]) s = some (p, t)) (hp : p ≠ []) :
    ∃ v : Conversion, ∃ rest, q = v.spell ++ rest ∧ p = rest ++ [0] ∧ v.Ok p ∧
      t = s ++ v.render env call := by
  suffices hparts : ∃ v : Conversion, ∃ rest, q = v.spell ++ rest ∧ p = rest ++ [0] ∧ v.Ok p by
    obtain ⟨v, rest, rfl, rfl, hok⟩ := hparts
    rw [List.append_assoc, conversion_spell env call hok hp] at h
    cases h
    exact ⟨v, rest, rfl, rfl, hok, rfl⟩
  obtain ⟨hleft, hleftStart⟩ := readFlag_eq 45 (q ++ [0])
  obtain ⟨hzero, hzeroStart⟩ := readFlag_eq 48 (readFlag 45 (q ++ [0])).2
  simp only [conversion] at h
  set left := readFlag 45 (q ++ [0])
  set zero := readFlag 48 left.2
  have hfield := List.takeWhile_append_dropWhile (p := isDigit) (l := zero.2)
  cases hbehind : zero.2.dropWhile isDigit with
  | nil =>
    rw [hbehind] at h
    cases h
  | cons c r =>
    rw [hbehind] at h hfield
    set field := zero.2.takeWhile isDigit with hfieldDef
    obtain ⟨⟨p', t'⟩, hput, hpair⟩ := Option.map_eq_some_iff.mp h
    cases hpair
    have hr : r ≠ [] := fun hr => hp (putConversion_nil (hr ▸ hput))
    have hfront : q ++ [0] =
        (spellFlag 45 left.1 ++ (spellFlag 48 zero.1 ++ (field ++ [c]))) ++ r := by
      rw [hleft, hzero, ← hfield]
      simp
    obtain ⟨r', rfl, hq'⟩ := terminated_suffix hfront hr
    have hnul : (0 : UInt8) ∉ r' := fun h0 => hq (by simp [hq', h0])
    obtain ⟨braces, rest, rfl, rfl, hbraces, _⟩ := putConversion_eq hnul hput hp
    refine ⟨⟨left.1, zero.1, field, c, braces⟩, rest, ?_, rfl, ?_, ?_, ?_, ?_, hbraces⟩
    · rw [hq']
      simp [Conversion.spell]
    · exact fun d hd => List.mem_takeWhile_imp hd
    · intro hz hhead
      refine hzeroStart hz ?_
      rw [← hfield]
      cases hf : field with
      | nil =>
        rw [hf] at hhead
        cases hhead
      | cons d field' =>
        rw [hf] at hhead
        exact hhead
    · refine ⟨?_, fun hc => hq (by simp [hq', ← show c = 0 from hc])⟩
      have hstop := List.head?_dropWhile_not isDigit zero.2
      rw [hbehind] at hstop
      simpa using hstop
    · intro hl hz hf hc
      refine hleftStart hl ?_
      change zero.1 = false at hz
      change field = [] at hf
      change c = 45 at hc
      have hbare : left.2 = c :: (spellBraces braces ++ rest ++ [0]) := by
        rw [hzero, hz, ← hfield, hf]
        rfl
      rw [hbare, hc, List.head?_cons]

/-! ### Patterns -/

theorem head?_append_nul {p : Bytes} {c : UInt8} (hc : c ≠ 0) :
    (p ++ [0]).head? = some c ↔ p.head? = some c := by
  cases p with
  | nil => simp [Ne.symm hc]
  | cons d p => rfl

theorem Conversion.ok_append_nul {v : Conversion} {p : Bytes} : v.Ok (p ++ [0]) ↔ v.Ok p := by
  have hhead : (p ++ [0]).head? ≠ some 123 ↔ p.head? ≠ some 123 :=
    not_congr (head?_append_nul (by decide))
  constructor
  · rintro ⟨hfield, hfieldStart, hletter, hletterStart, hown, hother⟩
    exact ⟨hfield, hfieldStart, hletter, hletterStart, hown, fun hc hb => hhead.mp (hother hc hb)⟩
  · rintro ⟨hfield, hfieldStart, hletter, hletterStart, hown, hother⟩
    exact ⟨hfield, hfieldStart, hletter, hletterStart, hown, fun hc hb => hhead.mpr (hother hc hb)⟩

theorem formatFrom_nil (env : LogEnv) (call : LogCall) (turns : ℕ) (s : Bytes) :
    formatFrom env call turns [] s = none := by
  cases turns with
  | zero => rfl
  | succ turns => rfl

@[simp] theorem spellPieces_cons (piece : Piece) (pieces : List Piece) :
    spellPieces (piece :: pieces) = piece.spell ++ spellPieces pieces := List.flatMap_cons

theorem Piece.spell_ne_nil (piece : Piece) : piece.spell ≠ [] := by
  cases piece with
  | char c => exact List.cons_ne_nil _ _
  | conversion v => exact List.cons_ne_nil _ _

theorem eq_nil_of_spellPieces {pieces : List Piece} (h : spellPieces pieces = []) :
    pieces = [] := by
  cases pieces with
  | nil => rfl
  | cons piece pieces => exact absurd (List.append_eq_nil_iff.mp h).1 piece.spell_ne_nil

/-- A readable pattern that starts with a character of its own. -/
theorem readable_char {c : UInt8} {pattern : Bytes} (hpercent : c ≠ 37) {pieces : List Piece}
    (hread : Readable pieces) (hspell : c :: pattern = spellPieces pieces) :
    ∃ rest, pieces = .char c :: rest ∧ Readable rest ∧ pattern = spellPieces rest := by
  cases pieces with
  | nil => cases hspell
  | cons piece pieces =>
    obtain ⟨_, hread⟩ := hread
    cases piece with
    | char d =>
      obtain ⟨rfl, htail⟩ := List.cons.inj hspell
      exact ⟨pieces, rfl, hread, htail⟩
    | conversion v => exact absurd (List.cons.inj hspell).1 hpercent

/-- A readable pattern that starts with a conversion. -/
theorem readable_conversion {pattern : Bytes} {pieces : List Piece} (hread : Readable pieces)
    (hspell : 37 :: pattern = spellPieces pieces) :
    ∃ v : Conversion, ∃ rest, pieces = .conversion v :: rest ∧ Readable rest ∧
      pattern = v.spell ++ spellPieces rest ∧ v.Ok (spellPieces rest) := by
  cases pieces with
  | nil => cases hspell
  | cons piece pieces =>
    obtain ⟨hpiece, hread⟩ := hread
    cases piece with
    | char d => exact absurd (List.cons.inj hspell).1.symm hpiece.2
    | conversion v => exact ⟨v, pieces, rfl, hread, (List.cons.inj hspell).2, hpiece⟩

/-- With turns enough, what the loop writes behind the buffer is what the pieces print. -/
theorem formatFrom_iff (env : LogEnv) (call : LogCall) {turns : ℕ} {pattern : Bytes}
    (hturns : pattern.length < turns) (hnul : (0 : UInt8) ∉ pattern) (s out : Bytes) :
    formatFrom env call turns (pattern ++ [0]) s = some out ↔
      ∃ pieces, Readable pieces ∧ pattern = spellPieces pieces ∧
        out = s ++ pieces.flatMap (Piece.render env call) := by
  induction turns generalizing pattern s with
  | zero => exact absurd hturns (Nat.not_lt_zero _)
  | succ turns ih =>
    cases pattern with
    | nil =>
      have hnil : formatFrom env call (turns + 1) ([] ++ [0]) s = some s := rfl
      rw [hnil, Option.some.injEq]
      constructor
      · rintro rfl
        exact ⟨[], trivial, rfl, (List.append_nil s).symm⟩
      · rintro ⟨pieces, _, hspell, rfl⟩
        rw [eq_nil_of_spellPieces hspell.symm]
        exact (List.append_nil s).symm
    | cons c pattern =>
      have hc : c ≠ 0 := fun hc => hnul (hc ▸ List.mem_cons_self)
      have hrest : (0 : UInt8) ∉ pattern := fun h0 => hnul (List.mem_cons_of_mem _ h0)
      have hlength : pattern.length < turns := Nat.lt_of_succ_lt_succ hturns
      rw [List.cons_append, formatFrom, if_neg hc]
      by_cases hpercent : c = 37
      · rw [if_pos hpercent, Option.bind_eq_some_iff, hpercent]
        constructor
        · rintro ⟨⟨p, t⟩, hconversion, hrun⟩
          have hp : p ≠ [] := by
            rintro rfl
            cases (formatFrom_nil env call turns t).symm.trans hrun
          obtain ⟨v, rest, rfl, rfl, hok, rfl⟩ := conversion_eq hrest hconversion hp
          have hnul' : (0 : UInt8) ∉ rest := fun h0 => hrest (List.mem_append_right _ h0)
          have hlength' : rest.length < turns := by
            rw [List.length_append] at hlength
            omega
          obtain ⟨pieces, hread, rfl, rfl⟩ := (ih hlength' hnul' _).mp hrun
          exact ⟨.conversion v :: pieces, ⟨Conversion.ok_append_nul.mp hok, hread⟩, rfl,
            List.append_assoc _ _ _⟩
        · rintro ⟨pieces, hread, hspell, rfl⟩
          obtain ⟨v, rest, rfl, hread, rfl, hok⟩ := readable_conversion hread hspell
          have hnul' : (0 : UInt8) ∉ spellPieces rest :=
            fun h0 => hrest (List.mem_append_right _ h0)
          have hlength' : (spellPieces rest).length < turns := by
            rw [List.length_append] at hlength
            omega
          refine ⟨(spellPieces rest ++ [0], s ++ v.render env call), ?_, ?_⟩
          · rw [List.append_assoc]
            exact conversion_spell env call (Conversion.ok_append_nul.mpr hok) (by simp) s
          · exact (ih hlength' hnul' _).mpr ⟨rest, hread, rfl, (List.append_assoc _ _ _).symm⟩
      · rw [if_neg hpercent, ih hlength hrest]
        constructor
        · rintro ⟨pieces, hread, rfl, rfl⟩
          exact ⟨.char c :: pieces, ⟨⟨hc, hpercent⟩, hread⟩, rfl, List.append_assoc _ _ _⟩
        · rintro ⟨pieces, hread, hspell, rfl⟩
          obtain ⟨rest, rfl, hread, hrest⟩ := readable_char hpercent hread hspell
          exact ⟨rest, hread, hrest, (List.append_assoc _ _ _).symm⟩

/-- A pattern prints something exactly if it is made of pieces, and prints what they do. -/
theorem formatLogMessage_iff (env : LogEnv) (call : LogCall) {pattern : Bytes}
    (hnul : (0 : UInt8) ∉ pattern) (out : Bytes) :
    formatLogMessage env call pattern = some out ↔
      ∃ pieces, Readable pieces ∧ pattern = spellPieces pieces ∧
        out = pieces.flatMap (Piece.render env call) :=
  formatFrom_iff env call (Nat.lt_succ_self _) hnul [] out

/-- The message of a link that is down. -/
def linkDown : LogCall := ⟨defineThisModule (ascii "bridge"), .warn, ascii "link down\n"⟩

def linkEnv : LogEnv :=
  ⟨ascii "ovsd", 0, ascii "node", 7, 42, 1500, [], fun template _ => template⟩

/-- `%05N|%-6p|%m`. -/
def linkPieces : List Piece :=
  [.conversion ⟨false, true, ascii "5", 78, none⟩, .char 124,
    .conversion ⟨true, false, ascii "6", 112, none⟩, .char 124,
    .conversion ⟨false, false, [], 109, none⟩]

theorem linkPieces_readable : Readable linkPieces := by
  have h78 : takesBraces 78 = false := by decide
  have h112 : takesBraces 112 = false := by decide
  have h109 : takesBraces 109 = false := by decide
  refine ⟨⟨?_, ?_, ?_, ?_, ?_, ?_⟩, ⟨by decide, by decide⟩, ⟨?_, ?_, ?_, ?_, ?_, ?_⟩,
    ⟨by decide, by decide⟩, ⟨?_, ?_, ?_, ?_, ?_, ?_⟩, trivial⟩
  all_goals simp [ascii, isDigit, *]

theorem formatLogMessage_iff_sample :
    formatLogMessage linkEnv linkDown (ascii "%05N|%-6p|%m") =
      some (ascii "00007|WARN  |link down") :=
  (formatLogMessage_iff linkEnv linkDown (by decide) _).mpr
    ⟨linkPieces, linkPieces_readable, by decide, by
      simp [linkPieces, linkEnv, linkDown, Piece.render, Conversion.render, letterText, plainText,
        padTo, natDec, fieldWidth, ascii, levelName, List.rdropWhile, List.dropWhile]⟩

end MemoryLeak.Log
