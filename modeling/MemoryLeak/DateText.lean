import MemoryLeak.Calendar
import MemoryLeak.CText
import Mathlib.Data.List.DropRight

/-!
# Dates as text

Decimal numbers of a fixed width, and the text `YYYY-MM-DD HH:MM:SS` of a broken-down time as
`strftime` writes it and `strptime` reads it. In four-digit years the order of the texts is the
order of the moments.
-/
namespace MemoryLeak.DateText
open MemoryLeak.CBytes MemoryLeak.CText MemoryLeak.Calendar

/-! ### Numbers of a fixed width -/

/-- The last `w` decimal digits of a number. -/
def fixedDec : ℕ → ℕ → Bytes
  | 0, _ => []
  | w + 1, n => fixedDec w (n / 10) ++ [UInt8.ofNat (48 + n % 10)]

@[simp] theorem fixedDec_length (w n : ℕ) : (fixedDec w n).length = w := by
  induction w generalizing n with
  | zero => rfl
  | succ w ih => simp [fixedDec, ih]

@[simp] theorem fixedDec_take {w i : ℕ} (h : w ≤ i) (n : ℕ) :
    (fixedDec w n).take i = fixedDec w n := List.take_of_length_le (by rwa [fixedDec_length])

theorem fixedDec_digits (w n : ℕ) : ∀ c ∈ fixedDec w n, isDigit c = true := by
  induction w generalizing n with
  | zero => simp [fixedDec]
  | succ w ih =>
    intro c hc
    rcases List.mem_append.mp hc with hc | hc
    · exact ih (n / 10) c hc
    · rw [List.mem_singleton.mp hc, isDigit, digit_toNat (Nat.mod_lt n (Nat.succ_pos 9))]
      simp
      omega

theorem digitsVal_append_digit (s : Bytes) {d : ℕ} (hd : d < 10) :
    digitsVal (s ++ [UInt8.ofNat (48 + d)]) = digitsVal s * 10 + d := by
  simp only [digitsVal, List.foldl_append, List.foldl_cons, List.foldl_nil, digit_toNat hd]
  omega

theorem digitsVal_fixedDec {w n : ℕ} (h : n < 10 ^ w) : digitsVal (fixedDec w n) = n := by
  induction w generalizing n with
  | zero =>
    rw [Nat.pow_zero, Nat.lt_one_iff] at h
    rw [h]
    rfl
  | succ w ih =>
    rw [fixedDec, digitsVal_append_digit _ (Nat.mod_lt n (Nat.succ_pos 9)),
      ih (Nat.div_lt_of_lt_mul (by rwa [Nat.pow_succ'] at h))]
    omega

/-- A number with all its digits. -/
theorem natDec_eq_fixedDec {w n : ℕ} (hw : 10 ^ w ≤ n ∨ w = 0) (h : n < 10 ^ (w + 1)) :
    natDec n = fixedDec (w + 1) n := by
  induction w generalizing n with
  | zero =>
    rw [natDec, if_pos (by simpa using h), fixedDec, fixedDec, Nat.mod_eq_of_lt (by simpa using h)]
    rfl
  | succ w ih =>
    have hlow : 10 * 10 ^ w ≤ n := by
      rcases hw with hw | hw
      · rwa [Nat.pow_succ'] at hw
      · cases hw
    have hone : 1 ≤ 10 ^ w := Nat.one_le_pow w 10 (Nat.succ_pos 9)
    rw [natDec, if_neg (by omega), fixedDec, ih (Or.inl (by omega))
      (by rw [Nat.pow_succ'] at h; omega)]

/-- A number that has fewer digits starts with a zero. -/
theorem fixedDec_leading (w : ℕ) {n : ℕ} (h : n < 10 ^ w) :
    fixedDec (w + 1) n = 48 :: fixedDec w n := by
  induction w generalizing n with
  | zero =>
    rw [Nat.pow_zero, Nat.lt_one_iff] at h
    rw [h]
    rfl
  | succ w ih =>
    rw [fixedDec, ih (Nat.div_lt_of_lt_mul (by rwa [Nat.pow_succ'] at h)), List.cons_append,
      fixedDec.eq_2 n w]

/-- What a conversion of the width `w` prints, its flag being the padding. -/
def padLeft (w : ℕ) (c : UInt8) (s : Bytes) : Bytes := List.replicate (w - s.length) c ++ s

theorem padLeft_of_le {w : ℕ} (c : UInt8) {s : Bytes} (h : w ≤ s.length) : padLeft w c s = s := by
  rw [padLeft, Nat.sub_eq_zero_of_le h, List.replicate_zero, List.nil_append]

theorem padLeft_succ {w : ℕ} (c : UInt8) {s : Bytes} (h : s.length ≤ w) :
    padLeft (w + 1) c s = c :: padLeft w c s := by
  rw [padLeft, Nat.succ_sub h, List.replicate_succ, List.cons_append, padLeft]

/-- `%0<w>d`. -/
theorem padLeft_zeros {w n : ℕ} (h : n < 10 ^ (w + 1)) :
    padLeft (w + 1) 48 (natDec n) = fixedDec (w + 1) n := by
  induction w with
  | zero => rw [natDec_eq_fixedDec (Or.inr rfl) h, padLeft_of_le _ (by simp)]
  | succ w ih =>
    rcases Nat.lt_or_ge n (10 ^ (w + 1)) with hlt | hge
    · rw [padLeft_succ _ (natDec_length_le hlt), ih hlt, fixedDec_leading (w + 1) hlt]
    · rw [natDec_eq_fixedDec (Or.inl hge) h, padLeft_of_le _ (by simp)]

/-- `%<w>d` prints zeros nowhere but in the number. -/
theorem padLeft_blanks {w n : ℕ} (h : n < 10 ^ (w + 2)) :
    padLeft (w + 2) 32 (natDec n) = fixedDec (w + 2) n ↔ 10 ^ (w + 1) ≤ n := by
  constructor
  · intro heq
    by_contra hlt
    rw [padLeft_succ _ (natDec_length_le (not_le.mp hlt)),
      fixedDec_leading (w + 1) (not_le.mp hlt)] at heq
    cases heq
  · intro hge
    rw [natDec_eq_fixedDec (Or.inl hge) h, padLeft_of_le _ (by simp)]

/-! ### Their order -/

/-- The numbers of the bytes. -/
def weights (s : Bytes) : List ℕ := s.map UInt8.toNat

@[simp] theorem weights_append (s t : Bytes) : weights (s ++ t) = weights s ++ weights t :=
  List.map_append

@[simp] theorem weights_length (s : Bytes) : (weights s).length = s.length := List.length_map ..

theorem lt_append_of_lt {a b : List ℕ} (hlen : a.length = b.length) (h : a < b) (x y : List ℕ) :
    a ++ x < b ++ y := by
  induction a generalizing b with
  | nil =>
    rw [List.length_eq_zero_iff.mp hlen.symm] at h
    exact absurd h (lt_irrefl _)
  | cons i a ih =>
    cases b with
    | nil => cases hlen
    | cons j b =>
      rw [List.cons_append, List.cons_append, List.cons_lt_cons_iff]
      rcases List.cons_lt_cons_iff.mp h with hlt | ⟨heq, hlt⟩
      · exact Or.inl hlt
      · exact Or.inr ⟨heq, ih (Nat.succ.inj hlen) hlt⟩

theorem append_lt_append_left (a : List ℕ) {x y : List ℕ} (h : x < y) : a ++ x < a ++ y := by
  induction a with
  | nil => exact h
  | cons i a ih => exact List.cons_lt_cons_iff.mpr (Or.inr ⟨rfl, ih⟩)

theorem fixedDec_lt {w a b : ℕ} (hb : b < 10 ^ w) (h : a < b) :
    weights (fixedDec w a) < weights (fixedDec w b) := by
  induction w generalizing a b with
  | zero =>
    rw [Nat.pow_zero] at hb
    omega
  | succ w ih =>
    rw [Nat.pow_succ'] at hb
    simp only [fixedDec, weights_append]
    rcases Nat.lt_or_ge (a / 10) (b / 10) with hlt | hge
    · exact lt_append_of_lt (by simp) (ih (Nat.div_lt_of_lt_mul hb) hlt) _ _
    · have heq : a / 10 = b / 10 := by omega
      rw [heq]
      refine append_lt_append_left _ (List.cons_lt_cons_iff.mpr (Or.inl ?_))
      rw [digit_toNat (Nat.mod_lt a (Nat.succ_pos 9)), digit_toNat (Nat.mod_lt b (Nat.succ_pos 9))]
      omega

/-- A number decides before what follows it. -/
theorem weights_field_lt {w : ℕ} {a b : ℤ} {P : Prop} {x y : Bytes} (ha : 0 ≤ a)
    (hb : b.toNat < 10 ^ w) (h : a < b ∨ a = b ∧ P) (hxy : P → weights x < weights y) :
    weights (fixedDec w a.toNat ++ x) < weights (fixedDec w b.toNat ++ y) := by
  simp only [weights_append]
  rcases h with hlt | ⟨rfl, hP⟩
  · exact lt_append_of_lt (by simp) (fixedDec_lt hb (by omega)) _ _
  · exact append_lt_append_left _ (hxy hP)

/-! ### The text of a broken-down time -/

/-- `YYYY-MM-DD HH:MM:SS`. -/
def dateText (tm : Tm) : Bytes :=
  fixedDec 4 tm.year.toNat ++ 45 :: (fixedDec 2 tm.mon.toNat ++ 45 :: (fixedDec 2 tm.mday.toNat ++
    32 :: (fixedDec 2 tm.hour.toNat ++ 58 :: (fixedDec 2 tm.min.toNat ++
      58 :: fixedDec 2 tm.sec.toNat))))

/-- A valid date-time text. -/
structure DateTime where
  tm : Tm
  valid : tm.Valid
  year : 0 ≤ tm.year ∧ tm.year ≤ 9999

def DateTime.text (d : DateTime) : Bytes := dateText d.tm

@[simp] theorem dateText_length (tm : Tm) : (dateText tm).length = 19 := by
  simp [dateText]

theorem daysBeforeMonth_step (y m : ℤ) : daysBeforeMonth y (m + 1) - daysBeforeMonth y m ≤ 31 := by
  unfold daysBeforeMonth
  split_ifs <;> omega

theorem dateText_noNul (tm : Tm) : (0 : UInt8) ∉ dateText tm := by
  have hfield : ∀ w n, (0 : UInt8) ∉ fixedDec w n := fun w n h => by
    have hdigit := fixedDec_digits w n 0 h
    cases hdigit
  simp [dateText, hfield]

/-- The texts of four-digit years have the order of the fields. -/
theorem dateText_lt {tm tm' : Tm} (hv : tm.Valid) (hv' : tm'.Valid) (hy : 0 ≤ tm.year)
    (hy' : tm'.year ≤ 9999) (h : tm.key < tm'.key) :
    weights (dateText tm) < weights (dateText tm') := by
  have hmday := daysBeforeMonth_step tm'.year tm'.mon
  obtain ⟨hmon₀, hmday₀, hhour₀, hmin₀, hsec₀⟩ := hv
  obtain ⟨hmon, hmday', hhour, hmin, hsec⟩ := hv'
  simp only [Tm.key, List.cons_lt_cons_iff, List.not_lt_nil, and_false, or_false] at h
  have hnext : ∀ (c : UInt8) {x y : Bytes}, weights x < weights y →
      weights (c :: x) < weights (c :: y) := fun c _ _ hlt =>
    List.cons_lt_cons_iff.mpr (Or.inr ⟨rfl, hlt⟩)
  refine weights_field_lt hy (by omega) h fun h => hnext 45 ?_
  refine weights_field_lt (by omega) (by omega) h fun h => hnext 45 ?_
  refine weights_field_lt (by omega) (by omega) h fun h => hnext 32 ?_
  refine weights_field_lt (by omega) (by omega) h fun h => hnext 58 ?_
  refine weights_field_lt (by omega) (by omega) h fun h => hnext 58 ?_
  exact fixedDec_lt (by omega) (by omega)

/-! ### `strftime` and `strptime` -/

/-- `%Y`, `%m`, `%d`, `%H`, `%M` and `%S`. -/
inductive Field where
  | year
  | mon
  | mday
  | hour
  | min
  | sec
deriving DecidableEq

def Field.get (tm : Tm) : Field → ℤ
  | .year => tm.year
  | .mon => tm.mon
  | .mday => tm.mday
  | .hour => tm.hour
  | .min => tm.min
  | .sec => tm.sec

def Field.set (v : ℤ) (tm : Tm) : Field → Tm
  | .year => { tm with year := v }
  | .mon => { tm with mon := v }
  | .mday => { tm with mday := v }
  | .hour => { tm with hour := v }
  | .min => { tm with min := v }
  | .sec => { tm with sec := v }

/-- The numbers that `strptime` takes for a field; the seconds have room for leap seconds. -/
def Field.range : Field → ℕ × ℕ
  | .year => (0, 9999)
  | .mon => (1, 12)
  | .mday => (1, 31)
  | .hour => (0, 23)
  | .min => (0, 59)
  | .sec => (0, 61)

def Field.width : Field → ℕ
  | .year => 4
  | _ => 2

/-- A part of a format; `blank` is a space. -/
inductive Directive where
  | field (f : Field)
  | lit (c : UInt8)
  | blank
deriving DecidableEq

/-- `%Y-%m-%d %H:%M:%S`. -/
def dateFormat : List Directive :=
  [.field .year, .lit 45, .field .mon, .lit 45, .field .mday, .blank,
    .field .hour, .lit 58, .field .min, .lit 58, .field .sec]

/-- The year has as many digits as it needs, the other fields have two. -/
def Directive.print (tm : Tm) : Directive → Bytes
  | .field .year => printD tm.year
  | .field f => fixedDec 2 (f.get tm).toNat
  | .lit c => [c]
  | .blank => [32]

/-- `strftime`; what is left in the buffer where the text and its terminator do not fit has no
defined contents. -/
def strftime (max : ℕ) (format : List Directive) (tm : Tm) : Option Bytes :=
  let s := format.flatMap (Directive.print tm)
  if s.length < max then some s else none

/-- A number of at most `n` digits; a digit that would lead beyond `hi` is not read. -/
def scanNumber (hi : ℕ) : ℕ → ℕ → Bytes → ℕ × Bytes
  | n + 1, v, c :: s =>
    if isDigit c ∧ v * 10 ≤ hi then scanNumber hi n (v * 10 + (c.toNat - 48)) s else (v, c :: s)
  | _, v, s => (v, s)

def scanField (f : Field) (s : Bytes) : Option (ℕ × Bytes) :=
  match s.dropWhile isSpace with
  | [] => none
  | c :: s =>
    let r := scanNumber f.range.2 f.width 0 (c :: s)
    if isDigit c ∧ f.range.1 ≤ r.1 ∧ r.1 ≤ f.range.2 then some r else none

/-- `strptime`: the fields before the first part that does not match are stored. -/
def strptime : List Directive → Bytes → Tm → Tm
  | [], _, tm => tm
  | .field f :: format, s, tm =>
    match scanField f s with
    | none => tm
    | some (v, s) => strptime format s (f.set v tm)
  | .lit c :: format, s, tm =>
    match s with
    | [] => tm
    | c' :: s => if c' = c then strptime format s tm else tm
  | .blank :: format, s, tm => strptime format (s.dropWhile isSpace) tm

theorem le_foldl_digits (ds : Bytes) (v : ℕ) :
    v ≤ ds.foldl (fun v c => v * 10 + (c.toNat - 48)) v := by
  induction ds generalizing v with
  | nil => exact le_refl v
  | cons c ds ih => exact (by omega : v ≤ v * 10 + (c.toNat - 48)).trans (ih _)

/-- Digits whose number is in the range are all read, as far as the width goes. -/
theorem scanNumber_digits {hi v : ℕ} {ds : Bytes} (hds : ∀ c ∈ ds, isDigit c = true)
    (hhi : ds.foldl (fun v c => v * 10 + (c.toNat - 48)) v ≤ hi) (rest : Bytes) :
    scanNumber hi ds.length v (ds ++ rest) =
      (ds.foldl (fun v c => v * 10 + (c.toNat - 48)) v, rest) := by
  induction ds generalizing v with
  | nil =>
    rw [List.length_nil, scanNumber.eq_2 hi 0 v ([] ++ rest) (by simp)]
    rfl
  | cons c ds ih =>
    have hle := le_foldl_digits ds (v * 10 + (c.toNat - 48))
    rw [List.foldl_cons] at hhi
    rw [List.length_cons, List.cons_append, scanNumber,
      if_pos ⟨hds c (List.mem_cons_self ..), by omega⟩, List.foldl_cons]
    exact ih (fun d hd => hds d (List.mem_cons_of_mem c hd)) hhi

theorem scanField_fixedDec {f : Field} {v : ℕ} (hv : f.range.1 ≤ v ∧ v ≤ f.range.2) (rest : Bytes) :
    scanField f (fixedDec f.width v ++ rest) = some (v, rest) := by
  have hlt : v < 10 ^ f.width := by
    cases f <;> simp only [Field.range, Field.width] at * <;> omega
  have hdigits := fixedDec_digits f.width v
  have hval : digitsVal (fixedDec f.width v) = v := digitsVal_fixedDec hlt
  have hhi : digitsVal (fixedDec f.width v) ≤ f.range.2 := by
    rw [hval]
    exact hv.2
  have hscan := scanNumber_digits hdigits hhi rest
  rw [fixedDec_length, ← digitsVal, hval] at hscan
  have hne : fixedDec f.width v ≠ [] := by cases f <;> simp [Field.width, fixedDec]
  have hdrop := (scanSign_digits hne hdigits rest).1
  obtain ⟨c, ds, hds⟩ := List.exists_cons_of_ne_nil hne
  rw [hds, List.cons_append] at hscan hdrop
  rw [scanField, hds, List.cons_append, hdrop]
  simp only [hscan, hdigits c (hds ▸ List.mem_cons_self ..), hv, and_self, if_true]

theorem strptime_field {f : Field} {v : ℤ} (hv : (f.range.1 : ℤ) ≤ v ∧ v ≤ f.range.2)
    (format : List Directive) (rest : Bytes) (tm : Tm) :
    strptime (.field f :: format) (fixedDec f.width v.toNat ++ rest) tm =
      strptime format rest (f.set v tm) := by
  have hscan := scanField_fixedDec (f := f) (v := v.toNat) (by omega) rest
  simp only [strptime, hscan]
  rw [Int.toNat_of_nonneg (by omega)]

theorem strptime_lit (c : UInt8) (format : List Directive) (rest : Bytes) (tm : Tm) :
    strptime (.lit c :: format) (c :: rest) tm = strptime format rest tm := by
  rw [strptime, if_pos rfl]

theorem strptime_blank {f : Field} (format : List Directive) (rest : Bytes) (tm : Tm) :
    strptime (.blank :: .field f :: format) (32 :: rest) tm =
      strptime (.field f :: format) rest tm := by
  have hspace : isSpace 32 = true := by decide
  simp only [strptime, scanField, List.dropWhile_cons_of_pos hspace, List.dropWhile_idempotent]

/-- A date that was written is read. -/
theorem strptime_dateText {tm : Tm} (hv : tm.Valid) (hy : 0 ≤ tm.year ∧ tm.year ≤ 9999) (tm₀ : Tm) :
    strptime dateFormat (dateText tm) tm₀ = tm := by
  have hmdays := daysBeforeMonth_step tm.year tm.mon
  obtain ⟨hmon, hmday, hhour, hmin, hsec⟩ := hv
  have hmday : 1 ≤ tm.mday ∧ tm.mday ≤ 31 := by omega
  have hsec : 0 ≤ tm.sec ∧ tm.sec ≤ 61 := by omega
  have hlast := strptime_field (f := .sec) hsec [] []
  rw [List.append_nil] at hlast
  rw [dateFormat, dateText]
  calc
    _ = _ := strptime_field (f := .year) hy ..
    _ = _ := strptime_lit ..
    _ = _ := strptime_field (f := .mon) hmon ..
    _ = _ := strptime_lit ..
    _ = _ := strptime_field (f := .mday) hmday ..
    _ = _ := strptime_blank ..
    _ = _ := strptime_field (f := .hour) hhour ..
    _ = _ := strptime_lit ..
    _ = _ := strptime_field (f := .min) hmin ..
    _ = _ := strptime_lit ..
    _ = _ := hlast _

/-- Twenty bytes have room for the years of four digits. -/
theorem strftime_dateFormat {tm : Tm} (hy : 1000 ≤ tm.year) :
    strftime 20 dateFormat tm = if tm.year ≤ 9999 then some (dateText tm) else none := by
  rw [strftime]
  by_cases hhigh : tm.year ≤ 9999
  · have hyear : printD tm.year = fixedDec 4 tm.year.toNat := by
      rw [printD, if_neg (by omega), natDec_eq_fixedDec (w := 3) (Or.inl (by omega)) (by omega)]
      congr 1
      omega
    have htext : dateFormat.flatMap (Directive.print tm) = dateText tm := by
      simp [dateFormat, Directive.print, dateText, Field.get, hyear]
    rw [htext, if_pos (by simp), if_pos hhigh]
  · have hyear : 4 < (printD tm.year).length := by
      rw [printD, if_neg (by omega)]
      exact lt_natDec_length (by omega)
    have hlong : ¬ (dateFormat.flatMap (Directive.print tm)).length < 20 := by
      simp [dateFormat, Directive.print]
      omega
    rw [if_neg hlong, if_neg hhigh]

/-! ### The texts of moments -/

/-- The year that a zone's clocks show is written with four digits. -/
def FourDigits (zone : Zone) (t : ℤ) : Prop :=
  1000 ≤ (localtime zone t).year ∧ (localtime zone t).year ≤ 9999

/-- After the epoch no year has fewer digits. -/
theorem fourDigits_epoch (zone : Zone) {t : ℤ} (h : 0 ≤ t) : 1000 ≤ (localtime zone t).year := by
  have hfirst : (gmtime (-90000)).year = 1969 := by decide
  have hmono : (gmtime (-90000)).year ≤ (gmtime (t + zone.offset)).year :=
    gmtime_year_mono (by have hnear := zone.near; omega)
  rw [localtime]
  omega

theorem FourDigits.before {zone : Zone} {s t : ℤ} (ht : FourDigits zone t) (h0 : 0 ≤ s)
    (hst : s ≤ t) : FourDigits zone s := by
  have hmono : (localtime zone s).year ≤ (localtime zone t).year := gmtime_year_mono (by omega)
  exact ⟨fourDigits_epoch zone h0, hmono.trans ht.2⟩

/-- `strcmp` compares moments. -/
theorem strcmp_dateText {zone : Zone} {t t' : ℤ} (ht : FourDigits zone t)
    (ht' : FourDigits zone t') :
    0 < strcmp (dateText (localtime zone t)) (dateText (localtime zone t')) ↔ t' < t := by
  have hcodes (tm) : codes (dateText tm) = weights (dateText tm) := by
    rw [codes, text_of_noNul (dateText_noNul tm), weights]
  have hlt : ∀ {u u' : ℤ}, FourDigits zone u → FourDigits zone u' → u < u' →
      weights (dateText (localtime zone u)) < weights (dateText (localtime zone u')) := by
    intro u u' hu hu' h
    have hyear : 0 ≤ (localtime zone u).year := by have hlow := hu.1; omega
    refine dateText_lt (gmtime_valid _) (gmtime_valid _) hyear hu'.2 ?_
    exact gmtime_key_lt (Int.add_lt_add_right h zone.offset)
  rw [← not_le, strcmp_nonpos_iff, hcodes, hcodes, not_le]
  constructor
  · intro h
    by_contra hle
    rcases Int.lt_or_eq_of_le (not_lt.mp hle) with hlt' | rfl
    · exact absurd h (lt_asymm (hlt ht ht' hlt'))
    · exact absurd h (lt_irrefl _)
  · exact hlt ht' ht

/-! ### The texts of days -/

/-- `YYYY-MM-DD`. -/
def dayText (tm : Tm) : Bytes :=
  fixedDec 4 tm.year.toNat ++ 45 :: (fixedDec 2 tm.mon.toNat ++ 45 :: fixedDec 2 tm.mday.toNat)

/-- `00:00:00`, with the blank in front of it. -/
def zeroClock : Bytes := [32, 48, 48, 58, 48, 48, 58, 48, 48]

/-- The date of a day by its number. -/
def dayName (n : ℤ) : Bytes := dayText (midnight n)

@[simp] theorem dayName_length (n : ℤ) : (dayName n).length = 10 := by
  simp [dayName, dayText]

theorem dayText_eq_dayName {tm : Tm} (h : tm.Valid) : dayText tm = dayName tm.day := by
  rw [dayName, midnight_eq h]
  rfl

theorem dateText_midnight (n : ℤ) : dateText (midnight n) = dayName n ++ zeroClock := by
  obtain ⟨hhour, hmin, hsec⟩ := midnight_clock n
  have hzero : fixedDec 2 (0 : ℤ).toNat = [48, 48] := by decide
  rw [dateText, hhour, hmin, hsec, hzero, dayName, dayText]
  simp [zeroClock]

theorem dayName_noNul (n : ℤ) : (0 : UInt8) ∉ dayName n := fun h =>
  dateText_noNul (midnight n) (dateText_midnight n ▸ List.mem_append_left zeroClock h)

theorem midnight_year_mono {n m : ℤ} (h : n ≤ m) : (midnight n).year ≤ (midnight m).year :=
  gmtime_year_mono (by omega)

/-- The dates of the years from 0 to 9999 have the order of the days. -/
theorem dayName_lt {n m : ℤ} (h : n < m) (hn : 0 ≤ (midnight n).year)
    (hm : (midnight m).year ≤ 9999) : weights (dayName n) < weights (dayName m) := by
  have hlt : weights (dateText (midnight n)) < weights (dateText (midnight m)) :=
    dateText_lt (midnight_valid n) (midnight_valid m) hn hm (gmtime_key_lt (by omega))
  rw [dateText_midnight, dateText_midnight, weights_append, weights_append] at hlt
  have hlen : (weights (dayName n)).length = (weights (dayName m)).length := by simp
  rcases lt_trichotomy (weights (dayName n)) (weights (dayName m)) with hlt' | heq | hgt
  · exact hlt'
  · rw [heq] at hlt
    exact absurd hlt (lt_irrefl _)
  · exact absurd hlt (lt_asymm (lt_append_of_lt hlen.symm hgt _ _))

/-- The names of days compare like the days. -/
theorem dayName_le_iff {n m : ℤ} (hn : 0 ≤ (midnight n).year) (hn' : (midnight n).year ≤ 9999)
    (hm : 0 ≤ (midnight m).year) (hm' : (midnight m).year ≤ 9999) :
    weights (dayName n) ≤ weights (dayName m) ↔ n ≤ m := by
  constructor
  · intro h
    by_contra hlt
    exact absurd h (not_le.mpr (dayName_lt (not_le.mp hlt) hm hn'))
  · intro h
    rcases Int.lt_or_eq_of_le h with hlt | rfl
    · exact le_of_lt (dayName_lt hlt hn hm')
    · exact le_rfl

end MemoryLeak.DateText
