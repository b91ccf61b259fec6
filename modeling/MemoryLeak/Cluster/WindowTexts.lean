import MemoryLeak.DateText
import MemoryLeak.Cluster.Windows

/-!
# The windows of a run, as texts

`lcs_get_range`, `lcs_update_time` and the loop of `lcs_start_bdata` on the texts that the program
keeps of its moments. The windows are intervals of one length, each starting where the one before it
ends, and those that are processed are the windows of the passes over moments.
-/
namespace MemoryLeak.Cluster.Texts
open MemoryLeak.CBytes MemoryLeak.CText MemoryLeak.Calendar MemoryLeak.DateText MemoryLeak.Loops

/-- A `struct tm` of zeros: January 1900, and no day of it. -/
def zeroTm : Tm := ⟨1900, 1, 0, 0, 0, 0⟩

def lcsStr2Time (zone : Zone) (str : Bytes) : ℤ :=
  mktime zone (strptime dateFormat (text str) zeroTm)

/-- The buffer of 32 bytes; a text that `strftime` has no room for leaves no defined one. -/
def lcsTime2Str (zone : Zone) (t : ℤ) : Option Bytes :=
  (strftime 20 dateFormat (localtime zone t)).map (memcpy (zeros 32) 0)

/-- `low` and `hi` of `gbinfo`, buffers of 32 bytes. -/
structure Window where
  low : Bytes
  hi : Bytes
deriving DecidableEq

/-- The window around the moment `mile`; there is none for a step of zero, by which it is
divided. -/
def lcsGetRange (zone : Zone) (step : ℤ) (mile : Bytes) : Option Window :=
  if step = 0 then none
  else do
    let t := lcsStr2Time zone mile
    let mode := t.tmod step
    let low ← lcsTime2Str zone (t - mode)
    let hi ← lcsTime2Str zone (t + step - mode)
    some ⟨low, hi⟩

/-- The texts are copied over the former ones, without their ends. -/
def lcsUpdateTime (zone : Zone) (step : ℤ) (w : Window) : Option Window := do
  let tmpLow := memcpy (zeros 64) 0 (text w.hi)
  let t1 := lcsStr2Time zone tmpLow + step
  let tmpHi ← lcsTime2Str zone t1
  some ⟨memcpy w.low 0 (text tmpLow), memcpy w.hi 0 (text tmpHi)⟩

def lcsGetOuttime (w : Window) (endtime : Bytes) : Bool := 0 < strcmp w.low endtime

/-- The state of the loop: the window, `LCS_APP_EXITED`, and the windows for which the tables were
saved. -/
structure LoopState where
  window : Window
  appExited : Bool
  processed : List Window

/-- A turn of the loop. -/
def circleTurn (zone : Zone) (step : ℤ) (endtime : Bytes) (s : LoopState) :
    Option (Turn LoopState) :=
  if lcsGetOuttime s.window endtime then some (.leave { s with appExited := true })
  else do
    let window ← lcsUpdateTime zone step s.window
    let s := { s with window := window, processed := s.processed ++ [s.window] }
    if s.appExited then some (.leave s) else some (.again s)

/-- The windows processed by `lcs_start_bdata`, from the first one on; `lcs_init_app` has cleared
`LCS_APP_EXITED`. -/
def lcsStartBdata (fuel : ℕ) (zone : Zone) (step : ℤ) (inittime endtime : Bytes) :
    Option (List Window) := do
  let window ← lcsGetRange zone step inittime
  let s ← whileLoop (circleTurn zone step endtime) fuel ⟨window, false, []⟩
  some s.processed

/-- The windows that `lcs_get_range` and repeated calls of `lcs_update_time` produce. -/
def producedWindow (zone : Zone) (step : ℤ) (inittime : Bytes) : ℕ → Option Window
  | 0 => lcsGetRange zone step inittime
  | n + 1 => (producedWindow zone step inittime n).bind (lcsUpdateTime zone step)

/-! ### Tilings -/

def Window.Contains (zone : Zone) (w : Window) (t : ℤ) : Prop :=
  lcsStr2Time zone w.low ≤ t ∧ t < lcsStr2Time zone w.hi

/-- The windows produced are adjacent intervals of one length, of which the first contains
`inittime`; those that start by `endtime` are processed, in their order, and each moment between the
two lies in one of them. -/
structure Tiles (zone : Zone) (step inittime endtime : ℤ) (produced : ℕ → Option Window)
    (processed : List Window) : Prop where
  first : ∃ w : Window, produced 0 = some w ∧ w.Contains zone inittime
  length : ∀ n w, produced n = some w → lcsStr2Time zone w.hi = lcsStr2Time zone w.low + step
  next : ∀ n w w', produced n = some w → produced (n + 1) = some w' → text w'.low = text w.hi
  exactly : ∀ (n : ℕ) w, processed[n]? = some w ↔
    produced n = some w ∧ lcsStr2Time zone w.low ≤ endtime
  once : ∀ t, inittime ≤ t → t ≤ endtime →
    ∃! n : ℕ, ∃ w : Window, processed[n]? = some w ∧ w.Contains zone t

/-! ### The texts of moments -/

/-- The buffer of a moment. -/
def stamp (zone : Zone) (t : ℤ) : Bytes := memcpy (zeros 32) 0 (dateText (localtime zone t))

theorem stamp_eq (zone : Zone) (t : ℤ) :
    stamp zone t = dateText (localtime zone t) ++ 0 :: zeros 12 := by
  rw [stamp, memcpy_zeros, dateText_length]
  rfl

@[simp] theorem text_stamp (zone : Zone) (t : ℤ) :
    text (stamp zone t) = dateText (localtime zone t) := by
  rw [stamp_eq, text_append_nul (dateText_noNul _)]

/-- A copy over a buffer whose text is as long. -/
theorem memcpy_stamp (zone : Zone) (s t : ℤ) :
    memcpy (stamp zone s) 0 (text (stamp zone t)) = stamp zone t := by
  rw [text_stamp, stamp, memcpy_memcpy_same (Nat.zero_le _) (by simp), stamp]

theorem lcsStr2Time_stamp {zone : Zone} {t : ℤ} (ht : FourDigits zone t) :
    lcsStr2Time zone (stamp zone t) = t := by
  have hyear : 0 ≤ (localtime zone t).year ∧ (localtime zone t).year ≤ 9999 := by
    have hlow := ht.1
    have hhigh := ht.2
    omega
  rw [lcsStr2Time, text_stamp, strptime_dateText (localtime_valid zone t) hyear, mktime_localtime]

/-- After the epoch a moment has a text exactly in the years of four digits. -/
theorem lcsTime2Str_eq_some_iff {zone : Zone} {t : ℤ} (h0 : 0 ≤ t) {s : Bytes} :
    lcsTime2Str zone t = some s ↔ FourDigits zone t ∧ s = stamp zone t := by
  have hlow := fourDigits_epoch zone h0
  rw [lcsTime2Str, strftime_dateFormat hlow]
  by_cases hhigh : (localtime zone t).year ≤ 9999
  · simp [FourDigits, hlow, hhigh, stamp, eq_comm]
  · simp [FourDigits, hhigh]

theorem lcsStr2Time_text (zone : Zone) (d : DateTime) :
    lcsStr2Time zone d.text = mktime zone d.tm := by
  rw [lcsStr2Time, DateTime.text, text_of_noNul (dateText_noNul d.tm),
    strptime_dateText d.valid d.year]

/-- The text of a date is that of its moment. -/
theorem dateTime_text (zone : Zone) (d : DateTime) :
    d.text = dateText (localtime zone (lcsStr2Time zone d.text)) := by
  rw [lcsStr2Time_text, localtime_mktime zone d.valid, DateTime.text]

/-- The window of two moments. -/
def window (zone : Zone) (low hi : ℤ) : Window := ⟨stamp zone low, stamp zone hi⟩

/-- The loop is left by the order of moments. -/
theorem lcsGetOuttime_window {zone : Zone} {low : ℤ} (hlow : FourDigits zone low) (hi : ℤ)
    {d : DateTime} (hd : FourDigits zone (lcsStr2Time zone d.text)) :
    lcsGetOuttime (window zone low hi) d.text = true ↔ lcsStr2Time zone d.text < low := by
  have hcodes : codes (stamp zone low) = codes (dateText (localtime zone low)) := by
    rw [codes, text_stamp, codes, text_of_noNul (dateText_noNul _)]
  rw [lcsGetOuttime, decide_eq_true_iff, ← strcmp_dateText hlow hd, ← dateTime_text, ← not_le,
    strcmp_nonpos_iff, window, hcodes, ← strcmp_nonpos_iff, not_le]

/-! ### The windows produced -/

/-- Where the windows start and end: at the last multiple of the step up to `inittime`, and step by
step from there. -/
def bound (step inittime : ℤ) (n : ℕ) : ℤ := (inittime / step + n) * step

theorem bound_zero (step inittime : ℤ) : bound step inittime 0 = inittime - inittime % step := by
  have hdiv := Int.ediv_mul_add_emod inittime step
  simp only [bound, Int.natCast_zero, Int.add_zero]
  omega

theorem bound_succ (step inittime : ℤ) (n : ℕ) :
    bound step inittime (n + 1) = bound step inittime n + step := by
  simp only [bound, Int.natCast_succ, Int.add_mul, Int.one_mul, Int.add_assoc]

theorem bound_mono {step : ℤ} (hstep : 0 < step) (inittime : ℤ) {n m : ℕ} (h : n ≤ m) :
    bound step inittime n ≤ bound step inittime m :=
  Int.mul_le_mul_of_nonneg_right (by omega) (le_of_lt hstep)

theorem bound_nonneg {step inittime : ℤ} (hstep : 0 < step) (h0 : 0 ≤ inittime) (n : ℕ) :
    0 ≤ bound step inittime n := by
  have hquot := Int.ediv_nonneg h0 (le_of_lt hstep)
  exact Int.mul_nonneg (by omega) (le_of_lt hstep)

theorem bound_le_iff {step : ℤ} (hstep : 0 < step) (inittime t : ℤ) (n : ℕ) :
    bound step inittime n ≤ t ↔ inittime / step + n ≤ t / step :=
  (Int.le_ediv_iff_mul_le hstep).symm

/-- The windows that start by `endtime`. -/
def windowCount (step inittime endtime : ℤ) : ℕ := (endtime / step - inittime / step + 1).toNat

theorem lt_windowCount_iff {step : ℤ} (hstep : 0 < step) (inittime endtime : ℤ) (n : ℕ) :
    n < windowCount step inittime endtime ↔ bound step inittime n ≤ endtime := by
  rw [bound_le_iff hstep, windowCount]
  omega

/-- The window of a moment. -/
theorem between_bounds_iff {step : ℤ} (hstep : 0 < step) (inittime t : ℤ) (n : ℕ) :
    bound step inittime n ≤ t ∧ t < bound step inittime (n + 1) ↔
      inittime / step + n = t / step := by
  rw [← not_le, bound_le_iff hstep, bound_le_iff hstep]
  omega

theorem lcsUpdateTime_window {zone : Zone} {step low hi : ℤ} (hstep : 0 < step) (h0 : 0 ≤ hi)
    (hhi : FourDigits zone hi) {w : Window} :
    lcsUpdateTime zone step (window zone low hi) = some w ↔
      FourDigits zone (hi + step) ∧ w = window zone hi (hi + step) := by
  have htext : text (memcpy (zeros 64) 0 (text (stamp zone hi))) = text (stamp zone hi) := by
    rw [text_stamp, memcpy_zeros, dateText_length, zeros, List.replicate_succ,
      text_append_nul (dateText_noNul _)]
  have htime : lcsStr2Time zone (memcpy (zeros 64) 0 (text (stamp zone hi))) = hi := by
    rw [lcsStr2Time, htext, ← lcsStr2Time, lcsStr2Time_stamp hhi]
  simp only [lcsUpdateTime, window, htext, htime, bind, Option.bind_eq_some_iff,
    lcsTime2Str_eq_some_iff (by omega : 0 ≤ hi + step), Option.some.injEq]
  constructor
  · rintro ⟨_, ⟨hyears, rfl⟩, rfl⟩
    exact ⟨hyears, by rw [memcpy_stamp, memcpy_stamp]⟩
  · rintro ⟨hyears, rfl⟩
    exact ⟨_, ⟨hyears, rfl⟩, by rw [memcpy_stamp, memcpy_stamp]⟩

theorem lcsGetRange_text {zone : Zone} {step : ℤ} (hstep : 0 < step) {d : DateTime}
    (h0 : 0 ≤ lcsStr2Time zone d.text) {w : Window} :
    lcsGetRange zone step d.text = some w ↔
      FourDigits zone (bound step (lcsStr2Time zone d.text) 1) ∧
        w = window zone (bound step (lcsStr2Time zone d.text) 0)
          (bound step (lcsStr2Time zone d.text) 1) := by
  have hlow := bound_nonneg hstep h0 0
  have hhi : bound step (lcsStr2Time zone d.text) 1 =
      bound step (lcsStr2Time zone d.text) 0 + step := bound_succ step _ 0
  have hfirst : lcsStr2Time zone d.text - (lcsStr2Time zone d.text).tmod step =
      bound step (lcsStr2Time zone d.text) 0 := by
    rw [Int.tmod_eq_emod_of_nonneg h0, bound_zero]
  have hsecond : lcsStr2Time zone d.text + step - (lcsStr2Time zone d.text).tmod step =
      bound step (lcsStr2Time zone d.text) 1 := by omega
  simp only [lcsGetRange, if_neg (ne_of_gt hstep), hfirst, hsecond, bind, Option.bind_eq_some_iff,
    lcsTime2Str_eq_some_iff hlow, lcsTime2Str_eq_some_iff (bound_nonneg hstep h0 1),
    Option.some.injEq, window]
  constructor
  · rintro ⟨_, ⟨_, rfl⟩, _, ⟨hyears, rfl⟩, rfl⟩
    exact ⟨hyears, rfl⟩
  · rintro ⟨hyears, rfl⟩
    exact ⟨_, ⟨hyears.before hlow (by omega), rfl⟩, _, ⟨hyears, rfl⟩, rfl⟩

/-- The windows are produced as long as their ends have years of four digits. -/
theorem producedWindow_eq_some_iff {zone : Zone} {step : ℤ} (hstep : 0 < step) {d : DateTime}
    (h0 : 0 ≤ lcsStr2Time zone d.text) (n : ℕ) {w : Window} :
    producedWindow zone step d.text n = some w ↔
      FourDigits zone (bound step (lcsStr2Time zone d.text) (n + 1)) ∧
        w = window zone (bound step (lcsStr2Time zone d.text) n)
          (bound step (lcsStr2Time zone d.text) (n + 1)) := by
  induction n generalizing w with
  | zero => exact lcsGetRange_text hstep h0
  | succ n ih =>
    have hnext := bound_succ step (lcsStr2Time zone d.text) (n + 1)
    have hnonneg := bound_nonneg hstep h0 (n + 1)
    simp only [producedWindow, Option.bind_eq_some_iff, ih]
    constructor
    · rintro ⟨_, ⟨hyears, rfl⟩, hupdate⟩
      rw [hnext]
      exact (lcsUpdateTime_window hstep hnonneg hyears).mp hupdate
    · rintro ⟨hyears, rfl⟩
      have hbefore := hyears.before hnonneg (by omega)
      refine ⟨_, ⟨hbefore, rfl⟩, (lcsUpdateTime_window hstep hnonneg hbefore).mpr ?_⟩
      rw [← hnext]
      exact ⟨hyears, rfl⟩

theorem contains_window {zone : Zone} {low hi t : ℤ} (hlow : FourDigits zone low)
    (hhi : FourDigits zone hi) : (window zone low hi).Contains zone t ↔ low ≤ t ∧ t < hi := by
  rw [Window.Contains, window, lcsStr2Time_stamp hlow, lcsStr2Time_stamp hhi]

/-! ### The windows processed -/

/-- The first `k` windows. -/
def windowsOf (zone : Zone) (step inittime : ℤ) (k : ℕ) : List Window :=
  (List.range k).map fun n => window zone (bound step inittime n) (bound step inittime (n + 1))

theorem getElem?_windowsOf (zone : Zone) (step inittime : ℤ) (k n : ℕ) {w : Window} :
    (windowsOf zone step inittime k)[n]? = some w ↔
      n < k ∧ w = window zone (bound step inittime n) (bound step inittime (n + 1)) := by
  rw [windowsOf, List.getElem?_map]
  by_cases hn : n < k
  · simp [hn, eq_comm]
  · simp [hn]

/-- The state of the loop after a number of turns. -/
def loopState (zone : Zone) (step inittime : ℤ) (n : ℕ) : LoopState :=
  ⟨window zone (bound step inittime n) (bound step inittime (n + 1)), false,
    windowsOf zone step inittime n⟩

/-- A window that starts by `endtime` is processed, and the next one takes its place. -/
theorem circleTurn_again {zone : Zone} {step inittime : ℤ} (hstep : 0 < step) (h0 : 0 ≤ inittime)
    {n : ℕ} (hyears : FourDigits zone (bound step inittime (n + 2))) {d : DateTime}
    (hd : FourDigits zone (lcsStr2Time zone d.text))
    (hn : bound step inittime n ≤ lcsStr2Time zone d.text) :
    circleTurn zone step d.text (loopState zone step inittime n) =
      some (.again (loopState zone step inittime (n + 1))) := by
  have hnonneg := bound_nonneg hstep h0
  have hmono {i j : ℕ} (h : i ≤ j) := bound_mono hstep inittime h
  have hlow := hyears.before (hnonneg n) (hmono (by omega))
  have hhi := hyears.before (hnonneg (n + 1)) (hmono (by omega))
  have hin : ¬ lcsGetOuttime (loopState zone step inittime n).window d.text = true := fun h =>
    absurd hn (not_le.mpr ((lcsGetOuttime_window hlow _ hd).mp h))
  have hupdate : lcsUpdateTime zone step (loopState zone step inittime n).window =
      some (loopState zone step inittime (n + 1)).window := by
    refine (lcsUpdateTime_window hstep (hnonneg (n + 1)) hhi).mpr ?_
    rw [← bound_succ]
    exact ⟨hyears, rfl⟩
  have hprocessed : windowsOf zone step inittime (n + 1) =
      windowsOf zone step inittime n ++ [(loopState zone step inittime n).window] := by
    rw [windowsOf, windowsOf, List.range_succ, List.map_append]
    rfl
  simp only [circleTurn, if_neg hin, hupdate, bind, Option.bind_some]
  rw [loopState, loopState, hprocessed]
  rfl

/-- The loop ends, whatever the fuel from some number on, after the windows that start by
`endtime`. -/
theorem lcsStartBdata_windows {zone : Zone} {step : ℤ} {inittime endtime : DateTime}
    (hstep : 0 < step) {ti te : ℤ} (hti : lcsStr2Time zone inittime.text = ti)
    (hte : lcsStr2Time zone endtime.text = te) (h0 : 0 ≤ ti) (hle : ti ≤ te)
    (hyears : FourDigits zone (bound step ti (windowCount step ti te + 1))) {fuel : ℕ}
    (hfuel : windowCount step ti te < fuel) :
    lcsStartBdata fuel zone step inittime.text endtime.text =
      some (windowsOf zone step ti (windowCount step ti te)) := by
  have hcount := lt_windowCount_iff hstep ti te
  generalize windowCount step ti te = k at *
  have hbefore : ∀ n ≤ k + 1, FourDigits zone (bound step ti n) := fun n hn =>
    hyears.before (bound_nonneg hstep h0 n) (bound_mono hstep ti hn)
  have hlast : te < bound step ti k := not_le.mp (mt (hcount k).mpr (lt_irrefl k))
  have hend : FourDigits zone te := (hbefore k (Nat.le_succ k)).before (h0.trans hle)
    (le_of_lt hlast)
  have hrange : lcsGetRange zone step inittime.text =
      some (window zone (bound step ti 0) (bound step ti 1)) := by
    rw [lcsGetRange_text hstep (hti ▸ h0), hti]
    exact ⟨hbefore 1 (by omega), rfl⟩
  have hagain : ∀ n < k, circleTurn zone step endtime.text (loopState zone step ti n) =
      some (.again (loopState zone step ti (n + 1))) := fun n hn =>
    circleTurn_again hstep h0 (hbefore (n + 2) (by omega)) (hte ▸ hend) (hte ▸ (hcount n).mp hn)
  have hleave : circleTurn zone step endtime.text (loopState zone step ti k) =
      some (.leave { loopState zone step ti k with appExited := true }) :=
    if_pos ((lcsGetOuttime_window (hbefore k (by omega)) _ (hte ▸ hend)).mpr (hte ▸ hlast))
  have hloop := whileLoop_steps hagain hleave hfuel
  simp only [lcsStartBdata, hrange, bind, Option.bind_some]
  exact Option.bind_eq_some_iff.mpr ⟨_, hloop, rfl⟩

theorem bound_windowCount {step inittime endtime : ℤ} (hstep : 0 < step)
    (hle : inittime ≤ endtime) : bound step inittime (windowCount step inittime endtime + 1) =
      endtime - endtime % step + 2 * step := by
  have hquot : inittime / step ≤ endtime / step := Int.ediv_le_ediv hstep hle
  have hindex : inittime / step + ((windowCount step inittime endtime + 1 : ℕ) : ℤ) =
      endtime / step + 2 := by
    rw [windowCount]
    omega
  have hdiv := Int.ediv_mul_add_emod endtime step
  rw [bound, hindex, Int.add_mul]
  omega

/-- The window at which a moment is found. -/
theorem windowsOf_contains {zone : Zone} {step inittime t : ℤ} (hstep : 0 < step)
    (h0 : 0 ≤ inittime) {k n : ℕ} (hyears : FourDigits zone (bound step inittime k)) {w : Window}
    (hw : (windowsOf zone step inittime k)[n]? = some w) :
    w.Contains zone t ↔ inittime / step + n = t / step := by
  obtain ⟨hn, rfl⟩ := (getElem?_windowsOf ..).mp hw
  have hnonneg := bound_nonneg hstep h0
  have hmono {i j : ℕ} (h : i ≤ j) := bound_mono hstep inittime h
  rw [contains_window (hyears.before (hnonneg n) (hmono (le_of_lt hn)))
    (hyears.before (hnonneg (n + 1)) (hmono hn)), between_bounds_iff hstep]

theorem windowsOf_once {zone : Zone} {step inittime endtime : ℤ} (hstep : 0 < step)
    (h0 : 0 ≤ inittime)
    (hyears : FourDigits zone (bound step inittime (windowCount step inittime endtime))) {t : ℤ}
    (hge : inittime ≤ t) (hle : t ≤ endtime) :
    ∃! n : ℕ, ∃ w : Window,
      (windowsOf zone step inittime (windowCount step inittime endtime))[n]? = some w ∧
        w.Contains zone t := by
  have hfrom : inittime / step ≤ t / step := Int.ediv_le_ediv hstep hge
  have hto : t / step ≤ endtime / step := Int.ediv_le_ediv hstep hle
  have hindex : (t / step - inittime / step).toNat < windowCount step inittime endtime := by
    rw [lt_windowCount_iff hstep, bound_le_iff hstep]
    omega
  have hget := (getElem?_windowsOf zone step inittime _ _).mpr ⟨hindex, rfl⟩
  refine ⟨_, ⟨_, hget, (windowsOf_contains hstep h0 hyears hget).mpr (by omega)⟩, ?_⟩
  rintro n ⟨w, hw, hin⟩
  have heq := (windowsOf_contains hstep h0 hyears hw).mp hin
  omega

/-- From `inittime` to `endtime` the windows tile the time, and the loop ends behind the last of
them. -/
theorem windows_tile (zone : Zone) {step : ℤ} (hstep : 0 < step) (inittime endtime : DateTime)
    (h0 : 0 ≤ lcsStr2Time zone inittime.text)
    (hle : lcsStr2Time zone inittime.text ≤ lcsStr2Time zone endtime.text)
    (hyears : FourDigits zone
      (lcsStr2Time zone endtime.text - lcsStr2Time zone endtime.text % step + 2 * step)) :
    ∃ turns processed, (∀ fuel, turns < fuel →
      lcsStartBdata fuel zone step inittime.text endtime.text = some processed) ∧
      Tiles zone step (lcsStr2Time zone inittime.text) (lcsStr2Time zone endtime.text)
        (producedWindow zone step inittime.text) processed := by
  have hproduced := fun n w => producedWindow_eq_some_iff hstep h0 n (w := w)
  generalize hti : lcsStr2Time zone inittime.text = ti at *
  generalize hte : lcsStr2Time zone endtime.text = te at *
  rw [← bound_windowCount hstep hle] at hyears
  have hcount := lt_windowCount_iff hstep ti te
  have hbefore : ∀ n ≤ windowCount step ti te + 1, FourDigits zone (bound step ti n) :=
    fun n hn => hyears.before (bound_nonneg hstep h0 n) (bound_mono hstep ti hn)
  have hlow : ∀ n, FourDigits zone (bound step ti (n + 1)) → FourDigits zone (bound step ti n) :=
    fun n h => h.before (bound_nonneg hstep h0 n) (bound_mono hstep ti (Nat.le_succ n))
  refine ⟨windowCount step ti te, windowsOf zone step ti (windowCount step ti te), fun fuel hfuel =>
    lcsStartBdata_windows hstep hti hte h0 hle hyears hfuel, ?_, ?_, ?_, ?_, ?_⟩
  · have h1 := hbefore 1 (by omega)
    refine ⟨_, (hproduced 0 _).mpr ⟨h1, rfl⟩, (contains_window (hlow 0 h1) h1).mpr ?_⟩
    rw [between_bounds_iff hstep, Int.natCast_zero, Int.add_zero]
  · intro n w hw
    obtain ⟨hyear, rfl⟩ := (hproduced n w).mp hw
    rw [window, lcsStr2Time_stamp hyear, lcsStr2Time_stamp (hlow n hyear), bound_succ]
  · intro n w w' hw hw'
    obtain ⟨_, rfl⟩ := (hproduced n w).mp hw
    obtain ⟨_, rfl⟩ := (hproduced (n + 1) w').mp hw'
    rfl
  · intro n w
    rw [getElem?_windowsOf, hproduced]
    constructor
    · rintro ⟨hn, rfl⟩
      have hyear := hbefore (n + 1) (by omega)
      refine ⟨⟨hyear, rfl⟩, ?_⟩
      rw [window, lcsStr2Time_stamp (hlow n hyear)]
      exact (hcount n).mp hn
    · rintro ⟨⟨hyear, rfl⟩, hle'⟩
      rw [window, lcsStr2Time_stamp (hlow n hyear)] at hle'
      exact ⟨(hcount n).mpr hle', rfl⟩
  · exact fun t hge hle' => windowsOf_once hstep h0 (hbefore _ (Nat.le_succ _)) hge hle'

/-- Seven hours ahead of UTC. -/
def eastern : Zone := ⟨25200, by decide⟩

/-- 29 October 2017, 8:01:07. -/
def firstCall : DateTime :=
  ⟨⟨2017, 10, 29, 8, 1, 7⟩, ⟨by decide, by decide, by decide, by decide, by decide⟩, by decide⟩

/-- The first minute of the next day. -/
def lastCall : DateTime :=
  ⟨⟨2017, 10, 30, 0, 0, 30⟩, ⟨by decide, by decide, by decide, by decide, by decide⟩, by decide⟩

theorem windows_tile_sample :
    ∃ turns processed, (∀ fuel, turns < fuel →
      lcsStartBdata fuel eastern 60 firstCall.text lastCall.text = some processed) ∧
      Tiles eastern 60 (lcsStr2Time eastern firstCall.text) (lcsStr2Time eastern lastCall.text)
        (producedWindow eastern 60 firstCall.text) processed := by
  refine windows_tile eastern (by decide) firstCall lastCall ?_ ?_ ?_
  · rw [lcsStr2Time_text]
    decide
  · rw [lcsStr2Time_text, lcsStr2Time_text]
    decide
  · rw [lcsStr2Time_text]
    exact ⟨by decide, by decide⟩

/-! ### The passes over moments -/

/-- What the loop over moments does to the window and the windows noted. -/
def windowTurn (step endtime : ℤ) (x : ℤ × ℤ × List (ℤ × ℤ)) :
    Option (Turn (ℤ × ℤ × List (ℤ × ℤ))) :=
  if endtime < x.1 then some (.leave x)
  else some (.again (x.2.1, x.2.1 + step, x.2.2 ++ [(x.1, x.2.1)]))

/-- The part of the state that `windowTurn` looks at. -/
def windowPart (s : BackupState) : ℤ × ℤ × List (ℤ × ℤ) :=
  (s.low, s.hi, s.passes.map fun p => (p.low, p.hi))

/-- In a zone without summer time, and with connections that are kept. -/
theorem circleTurn_windowPart (step endtime : ℤ) (s : BackupState) :
    windowTurn step endtime (windowPart s) =
      (Cluster.circleTurn id keptReads step endtime s).map (Turn.map windowPart) := by
  by_cases hout : endtime < s.low
  · have hleave : Cluster.circleTurn id keptReads step endtime s = some (.leave s) :=
      circleTurn_eq_some_iff.mpr ⟨rfl, Or.inl ⟨hout, rfl⟩⟩
    simp [windowTurn, windowPart, hout, Turn.map, hleave]
  · obtain ⟨s₁, hquery⟩ := lcsTryQuery_connected id s
    obtain ⟨hpasses, -, -, hlow, hhi, -⟩ := lcsTryQuery_frame hquery
    have hagain : Cluster.circleTurn id keptReads step endtime s =
        some (.again (lcsEndCircle id step s₁)) :=
      circleTurn_eq_some_iff.mpr
        ⟨rfl, Or.inr ⟨not_lt.mp hout, by simp [keptReads], s₁, hquery, rfl⟩⟩
    simp [windowTurn, windowPart, hout, Turn.map, hagain, lcsEndCircle, Cluster.lcsUpdateTime,
      hpasses, hlow, hhi]

/-- The passes over moments have the windows of the multiples of the step. -/
theorem passes_windows {step : ℤ} (hstep : 0 < step) {cdr : CdrTable} {date inittime endtime : ℤ}
    (htimes : lcsGetInittime (cdr.day date) = some (inittime, endtime)) (h0 : 0 ≤ inittime)
    {fuel : ℕ} (hfuel : windowCount step inittime endtime < fuel) :
    ∃ passes, Cluster.lcsStartBdata id keptReads fuel step cdr date = some passes ∧
      passes.map (fun p => (p.low, p.hi)) =
        (List.range (windowCount step inittime endtime)).map fun n =>
          (bound step inittime n, bound step inittime (n + 1)) := by
  have hcount := lt_windowCount_iff hstep inittime endtime
  generalize windowCount step inittime endtime = k at *
  let run n : ℤ × ℤ × List (ℤ × ℤ) := (bound step inittime n, bound step inittime (n + 1),
    (List.range n).map fun n => (bound step inittime n, bound step inittime (n + 1)))
  have hagain : ∀ n < k, windowTurn step endtime (run n) = some (.again (run (n + 1))) := by
    intro n hn
    rw [windowTurn, if_neg (not_lt.mpr ((hcount n).mp hn))]
    simp only [run, List.range_succ, List.map_append, bound_succ]
    rfl
  have hleave : windowTurn step endtime (run k) = some (.leave (run k)) :=
    if_pos (not_le.mp (mt (hcount k).mpr (lt_irrefl k)))
  have hrange : Cluster.lcsGetRange id step inittime =
      some (bound step inittime 0, bound step inittime 1) := by
    rw [Cluster.lcsGetRange, if_neg (ne_of_gt hstep), Int.tmod_eq_emod_of_nonneg h0,
      show bound step inittime 1 = bound step inittime 0 + step from bound_succ step inittime 0,
      bound_zero, id, id]
    congr 2
    omega
  obtain ⟨s₀, hs₀⟩ : ∃ s₀, lcsInitCircle .connected (startState (bound step inittime 0)
      (bound step inittime 1) (cdr.day date)) = some s₀ := ⟨_, lcsInitCircle_start ..⟩
  obtain ⟨hlow, hhi, hpasses, -⟩ := lcsInitCircle_frame hs₀
  have hstart : windowPart s₀ = run 0 := by
    simp [windowPart, run, hlow, hhi, hpasses]
  have hloop := whileLoop_map windowPart (I := fun _ => True)
    (fun s _ => circleTurn_windowPart step endtime s)
      (fun _ _ _ _ => trivial) fuel (s := s₀) trivial
  rw [hstart, whileLoop_steps hagain hleave hfuel, eq_comm, Option.map_eq_some_iff] at hloop
  obtain ⟨s, hs, hpart⟩ := hloop
  refine ⟨s.passes, ?_, congrArg (fun x => x.2.2) hpart⟩
  simp only [Cluster.lcsStartBdata, htimes, hrange, bind, Option.bind_some]
  exact Option.bind_eq_some_iff.mpr ⟨s₀, hs₀, Option.bind_eq_some_iff.mpr ⟨s, hs, rfl⟩⟩

/-- The windows processed by the loop over texts are those of the passes over moments. -/
theorem lcsStartBdata_refines (zone : Zone) {step : ℤ} (hstep : 0 < step) {cdr : CdrTable}
    {date : ℤ} {inittime endtime : DateTime}
    (htimes : lcsGetInittime (cdr.day date) =
      some (lcsStr2Time zone inittime.text, lcsStr2Time zone endtime.text))
    (h0 : 0 ≤ lcsStr2Time zone inittime.text)
    (hle : lcsStr2Time zone inittime.text ≤ lcsStr2Time zone endtime.text)
    (hyears : FourDigits zone
      (lcsStr2Time zone endtime.text - lcsStr2Time zone endtime.text % step + 2 * step)) :
    ∃ turns, ∀ fuel, turns < fuel → ∃ passes,
      Cluster.lcsStartBdata id keptReads fuel step cdr date = some passes ∧
      lcsStartBdata fuel zone step inittime.text endtime.text =
        some (passes.map fun p => window zone p.low p.hi) := by
  rw [← bound_windowCount hstep hle] at hyears
  refine ⟨windowCount step (lcsStr2Time zone inittime.text) (lcsStr2Time zone endtime.text),
    fun fuel hfuel => ?_⟩
  obtain ⟨passes, hpasses, hwindows⟩ := passes_windows hstep htimes h0 hfuel
  refine ⟨passes, hpasses, ?_⟩
  rw [lcsStartBdata_windows hstep rfl rfl h0 hle hyears hfuel, windowsOf]
  have hmap := congrArg (List.map fun x : ℤ × ℤ => window zone x.1 x.2) hwindows
  rw [List.map_map, List.map_map] at hmap
  exact congrArg some hmap.symm

end MemoryLeak.Cluster.Texts
