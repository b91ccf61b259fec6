import MemoryLeak.Cluster.WindowTexts
import MemoryLeak.Cluster.Workers

/-!
# The days of the manager

`lcs_init_server_info` and the loop of `lcs_start_bdata` of the manager, which compare dates as
texts and go from one to the next through the time functions. The dates visited are the days from
the first to the last of all servers, and the threads of a server get the days of its own range.
-/
namespace MemoryLeak.Cluster.Days
open MemoryLeak.CBytes MemoryLeak.CText MemoryLeak.Calendar MemoryLeak.DateText MemoryLeak.Loops
open MemoryLeak.Runs MemoryLeak.Cluster.Texts

/-! ### The manager -/

/-- What `lcs_get_inittime` gets: nothing from `mysql_init`, which is an error, no row, or the
first and the last date. -/
inductive InitQuery where
  | initFailed
  | noRow
  | row (startdate lastdate : Bytes)

def lcsGetInittime (p : ServerInfo) : InitQuery → ServerInfo
  | .row startdate lastdate =>
    { p with
      startdate := memcpy p.startdate 0 (startdate ++ [0])
      lastdate := memcpy p.lastdate 0 (lastdate ++ [0]) }
  | _ => p

/-- `min` or `max` after one more text; `takes` says when that is taken in its place. -/
def pick (takes : Bytes → Bytes → Bool) (cur : Option Bytes) (s : Bytes) : Option Bytes :=
  match cur with
  | none => if text s ≠ [] then some s else none
  | some c => if text s ≠ [] then some (if takes c s then s else c) else some c

def takesMin (min s : Bytes) : Bool := 0 < strcmp min s

def takesMax (max s : Bytes) : Bool := strcmp max s < 0

/-- The loop over the servers, with `min` and `max`. -/
def initServers (query : ℕ → InitQuery) :
    ℕ → List ServerInfo → Option Bytes → Option Bytes →
      List ServerInfo × Option Bytes × Option Bytes
  | _, [], min, max => ([], min, max)
  | i, p :: ps, min, max =>
    match query i with
    | .initFailed => (p :: ps, min, max)
    | q =>
      let p := lcsGetInittime p q
      let r := initServers query (i + 1) ps (pick takesMin min p.startdate)
        (pick takesMax max p.lastdate)
      (p :: r.1, r.2)

def lcsInitServerInfo (query : ℕ → InitQuery) (list : ServerInfoList) : ServerInfoList :=
  match initServers query 0 list.listinfo none none with
  | (listinfo, some min, some max) =>
    { list with
      listinfo := listinfo
      startdate := memcpy list.startdate (text list.startdate).length (text min ++ [0])
      lastdate := memcpy list.lastdate (text list.lastdate).length (text max ++ [0]) }
  | (listinfo, _, _) => { list with listinfo := listinfo }

/-- The text that `lcs_next_day` makes of a date: `"%s 00:00:00"` in a buffer of 32 bytes, one day
later. -/
def dayAfter (zone : Zone) (currentdate : Bytes) : Option Bytes :=
  if (currentdate ++ zeroClock).length < 32 then
    let tmp := memcpy (zeros 32) 0 (currentdate ++ zeroClock ++ [0])
    lcsTime2Str zone (lcsStr2Time zone tmp + 24 * 3600)
  else none

/-- The list, the dates printed, and the server and the date of each thread created. -/
structure DayLoop where
  list : ServerInfoList
  visited : List Bytes
  handed : List (ℕ × Bytes)

/-- The turn of the loop over the servers for server `i`. -/
def handServer (s : DayLoop) (i : ℕ) : DayLoop :=
  match s.list.listinfo[i]? with
  | none => s
  | some info =>
    if strcmp info.startdate s.list.currentdate ≤ 0 ∧
        strcmp s.list.currentdate info.lastdate ≤ 0 then
      let info := { info with currentdate := memcpy info.currentdate 0 (text s.list.currentdate) }
      { s with
        list := { s.list with listinfo := s.list.listinfo.set i info }
        handed := s.handed ++ [(i, text info.currentdate)] }
    else s

/-- The list and the dates printed after `lcs_next_day`. -/
def openDay (zone : Zone) (s : DayLoop) : DayLoop :=
  let list := lcsNextDay (dayAfter zone) s.list
  { s with list := list, visited := s.visited ++ [text list.currentdate] }

/-- A turn of the loop; its threads have finished before the next one. -/
def dayTurn (zone : Zone) (s : DayLoop) : Option (Turn DayLoop) :=
  let list := lcsNextDay (dayAfter zone) s.list
  if list.iscomplete then some (.leave { s with list := list })
  else some (.again ((List.range list.listinfo.length).foldl handServer (openDay zone s)))

def lcsStartBdata (zone : Zone) (fuel : ℕ) (list : ServerInfoList) : Option DayLoop :=
  whileLoop (dayTurn zone) fuel ⟨list, [], []⟩

/-- The dates that the threads of a server got. -/
def DayLoop.handedTo (s : DayLoop) (i : ℕ) : List Bytes :=
  (s.handed.filter fun h => h.1 = i).map Prod.snd

/-! ### Days in a row -/

/-- `k` days from day `n` on. -/
def daysFrom (n : ℤ) (k : ℕ) : List ℤ := (List.range k).map fun j : ℕ => n + (j : ℤ)

/-- The days of a range. -/
def days (first last : ℤ) : List ℤ := daysFrom first (last - first + 1).toNat

theorem daysFrom_succ (n : ℤ) (k : ℕ) : daysFrom n (k + 1) = daysFrom n k ++ [n + k] := by
  simp [daysFrom, List.range_succ]

theorem daysFrom_add (n : ℤ) (k l : ℕ) :
    daysFrom n (k + l) = daysFrom n k ++ daysFrom (n + k) l := by
  simp [daysFrom, List.range_add, Int.add_assoc]

theorem mem_daysFrom {n d : ℤ} {k : ℕ} : d ∈ daysFrom n k ↔ n ≤ d ∧ d < n + k := by
  simp only [daysFrom, List.mem_map, List.mem_range]
  constructor
  · rintro ⟨j, hj, rfl⟩
    omega
  · rintro ⟨hlow, hhigh⟩
    exact ⟨(d - n).toNat, by omega, by omega⟩

/-- The days of a part of a range. -/
theorem days_filter {first last a b : ℤ} (ha : first ≤ a) (hab : a ≤ b) (hb : b ≤ last) :
    (days first last).filter (fun d => a ≤ d ∧ d ≤ b) = days a b := by
  obtain ⟨k, hk⟩ : ∃ k : ℕ, a = first + k := ⟨(a - first).toNat, by omega⟩
  obtain ⟨l, hl⟩ : ∃ l : ℕ, b + 1 = a + l := ⟨(b + 1 - a).toNat, by omega⟩
  obtain ⟨m, hm⟩ : ∃ m : ℕ, last = b + m := ⟨(last - b).toNat, by omega⟩
  have hall : (last - first + 1).toNat = k + (l + m) := by omega
  have hpart : (b - a + 1).toNat = l := by omega
  have hbefore : (daysFrom first k).filter (fun d => a ≤ d ∧ d ≤ b) = [] := by
    rw [List.filter_eq_nil_iff]
    intro d hd
    have := mem_daysFrom.mp hd
    simp only [decide_eq_true_eq]
    omega
  have hinside : (daysFrom a l).filter (fun d => a ≤ d ∧ d ≤ b) = daysFrom a l := by
    rw [List.filter_eq_self]
    intro d hd
    have := mem_daysFrom.mp hd
    simp only [decide_eq_true_eq]
    omega
  have hbehind : (daysFrom (a + l) m).filter (fun d => a ≤ d ∧ d ≤ b) = [] := by
    rw [List.filter_eq_nil_iff]
    intro d hd
    have := mem_daysFrom.mp hd
    simp only [decide_eq_true_eq]
    omega
  rw [days, days, hall, hpart, daysFrom_add, daysFrom_add, ← hk, List.filter_append,
    List.filter_append, hbefore, hinside, hbehind, List.nil_append, List.append_nil]

/-! ### Servers with a range of days -/

/-- The days of a server, in years of four digits. -/
structure DayRange where
  first : ℤ
  last : ℤ
  le : first ≤ last
  low : 1000 ≤ (midnight first).year
  high : (midnight last).year ≤ 9999

/-- A server whose days are these or, for `none`, that has none. -/
def reported : Option DayRange → InitQuery
  | none => .noRow
  | some r => .row (dayName r.first) (dayName r.last)

/-- A server in memory from `calloc`. -/
def blankServer : ServerInfo := ⟨zeros 32, zeros 32, zeros 32⟩

/-- The list with its servers before the queries; its own memory is static. -/
def blankList (n : ℕ) : ServerInfoList :=
  ⟨List.replicate n blankServer, zeros 32, zeros 32, zeros 32, false⟩

/-- Whether a day is one of those of a server. -/
def covers : Option DayRange → ℤ → Bool
  | none, _ => false
  | some r, d => r.first ≤ d ∧ d ≤ r.last

def HasDates (p : ServerInfo) : Option DayRange → Prop
  | none => text p.startdate = [] ∧ text p.lastdate = []
  | some r => text p.startdate = dayName r.first ∧ text p.lastdate = dayName r.last

/-- A day in a year of four digits. -/
def InYears (n : ℤ) : Prop := 1000 ≤ (midnight n).year ∧ (midnight n).year ≤ 9999

theorem InYears.between {a b d : ℤ} (ha : InYears a) (hb : InYears b) (had : a ≤ d) (hdb : d ≤ b) :
    InYears d :=
  ⟨ha.1.trans (midnight_year_mono had), (midnight_year_mono hdb).trans hb.2⟩

theorem DayRange.inYears (r : DayRange) : InYears r.first ∧ InYears r.last :=
  ⟨⟨r.low, (midnight_year_mono r.le).trans r.high⟩, ⟨r.low.trans (midnight_year_mono r.le), r.high⟩⟩

section Compare

variable {s t : Bytes} {n m : ℤ}

theorem strcmp_days (hs : text s = dayName n) (ht : text t = dayName m) (hn : InYears n)
    (hm : InYears m) : strcmp s t ≤ 0 ↔ n ≤ m := by
  have hyear := hn.1
  have hyear' := hm.1
  rw [strcmp_nonpos_iff, codes, hs, codes, ht]
  exact dayName_le_iff (by omega) hn.2 (by omega) hm.2

theorem strcmp_days' (hs : text s = dayName n) (ht : text t = dayName m) (hn : InYears n)
    (hm : InYears m) : 0 ≤ strcmp s t ↔ m ≤ n := by
  rw [strcmp_nonneg_iff, ← strcmp_nonpos_iff]
  exact strcmp_days ht hs hm hn

/-- No date comes up to the empty text. -/
theorem strcmp_empty (hs : text s = dayName n) (ht : text t = []) : ¬ strcmp s t ≤ 0 := by
  intro h
  rw [strcmp_nonpos_iff, codes, hs, codes, ht] at h
  have hlen : (dayName n).length = 10 := dayName_length n
  cases hname : dayName n with
  | nil =>
    rw [hname] at hlen
    cases hlen
  | cons c cs =>
    rw [hname] at h
    exact absurd h (not_le.mpr (List.nil_lt_cons _ _))

end Compare

/-! ### The first and the last day -/

/-- What `min` or `max` holds after some servers: the day `name` of a server with the least
`key`, if a server has days. -/
def Chosen (key name : DayRange → ℤ) (ranges : List (Option DayRange)) : Option Bytes → Prop
  | none => ∀ r, some r ∉ ranges
  | some s =>
    ∃ r, some r ∈ ranges ∧ text s = dayName (name r) ∧ ∀ r', some r' ∈ ranges → key r ≤ key r'

section Chosen

variable {key name : DayRange → ℤ} {takes : Bytes → Bytes → Bool}

theorem pick_chosen {ranges : List (Option DayRange)} {m : Option Bytes}
    (htakes : ∀ r r' s s', text s = dayName (name r) → text s' = dayName (name r') →
      (takes s s' = true ↔ key r' < key r)) (h : Chosen key name ranges m) (o : Option DayRange)
    {s : Bytes} (hs : text s = o.elim [] fun r => dayName (name r)) :
    Chosen key name (ranges ++ [o]) (pick takes m s) := by
  cases o with
  | none =>
    have hs : text s = [] := hs
    have hsame : pick takes m s = m := by cases m <;> simp [pick, hs]
    rw [hsame]
    cases m with
    | none => simpa [Chosen] using h
    | some c => simpa [Chosen] using h
  | some r =>
    have hs : text s = dayName (name r) := hs
    have hne : text s ≠ [] := fun hnil => by
      have hlen := dayName_length (name r)
      rw [← hs, hnil] at hlen
      cases hlen
    cases m with
    | none =>
      have hnone : ∀ r, some r ∉ ranges := h
      rw [pick, if_pos hne]
      refine ⟨r, by simp, hs, fun r' hr' => ?_⟩
      rcases List.mem_append.mp hr' with hr' | hr'
      · exact absurd hr' (hnone r')
      · rw [Option.some.inj (List.mem_singleton.mp hr')]
    | some c =>
      obtain ⟨r₀, hmem, hc, hleast⟩ := h
      have hiff := htakes r₀ r c s hc hs
      rw [pick, if_pos hne]
      by_cases htake : takes c s = true
      · have hlt := hiff.mp htake
        rw [if_pos htake]
        refine ⟨r, by simp, hs, fun r' hr' => ?_⟩
        rcases List.mem_append.mp hr' with hr' | hr'
        · exact hlt.le.trans (hleast r' hr')
        · rw [Option.some.inj (List.mem_singleton.mp hr')]
      · have hle := not_lt.mp (mt hiff.mpr htake)
        rw [if_neg htake]
        refine ⟨r₀, List.mem_append_left _ hmem, hc, fun r' hr' => ?_⟩
        rcases List.mem_append.mp hr' with hr' | hr'
        · exact hleast r' hr'
        · rwa [Option.some.inj (List.mem_singleton.mp hr')]

theorem foldl_pick_chosen (htakes : ∀ r r' s s', text s = dayName (name r) →
      text s' = dayName (name r') → (takes s s' = true ↔ key r' < key r))
    {f : Option DayRange → Bytes} (hf : ∀ o, text (f o) = o.elim [] fun r => dayName (name r))
    (ranges seen : List (Option DayRange)) {m : Option Bytes} (h : Chosen key name seen m) :
    Chosen key name (seen ++ ranges) (ranges.foldl (fun m o => pick takes m (f o)) m) := by
  induction ranges generalizing seen m with
  | nil => rwa [List.append_nil]
  | cons o ranges ih =>
    rw [List.foldl_cons, List.append_cons]
    exact ih (seen ++ [o]) (pick_chosen htakes h o (hf o))

end Chosen

/-- A server after its query. -/
def serverOf (o : Option DayRange) : ServerInfo := lcsGetInittime blankServer (reported o)

theorem text_dayName_memcpy (n : ℤ) :
    text (memcpy (zeros 32) 0 (dayName n ++ [0])) = dayName n := by
  rw [memcpy_start, List.append_assoc]
  exact text_append_nul (dayName_noNul n) _

theorem text_zeros (n : ℕ) : text (zeros n) = [] := by
  cases n with
  | zero => rfl
  | succ n => rfl

theorem serverOf_dates (o : Option DayRange) : HasDates (serverOf o) o := by
  cases o with
  | none => exact ⟨text_zeros 32, text_zeros 32⟩
  | some r => exact ⟨text_dayName_memcpy r.first, text_dayName_memcpy r.last⟩

theorem initServers_reported {query : ℕ → InitQuery} (i : ℕ) (ranges : List (Option DayRange))
    (hquery : ∀ j o, ranges[j]? = some o → query (i + j) = reported o) (min max : Option Bytes) :
    initServers query i (ranges.map fun _ => blankServer) min max =
      (ranges.map serverOf,
        ranges.foldl (fun m o => pick takesMin m (serverOf o).startdate) min,
        ranges.foldl (fun m o => pick takesMax m (serverOf o).lastdate) max) := by
  induction ranges generalizing i min max with
  | nil => rfl
  | cons o ranges ih =>
    have hfirst : query i = reported o := hquery 0 o rfl
    have hrest := ih (i + 1) (fun j o' h => by
      rw [Nat.add_assoc, Nat.add_comm 1 j]
      exact hquery (j + 1) o' h)
    cases o with
    | none => simp only [List.map_cons, initServers, hfirst, reported, hrest, List.foldl_cons]; rfl
    | some r =>
      simp only [List.map_cons, initServers, hfirst, reported, hrest, List.foldl_cons]
      rfl

theorem foldl_takesMin (ranges : List (Option DayRange)) :
    Chosen DayRange.first DayRange.first ranges
      (ranges.foldl (fun m o => pick takesMin m (serverOf o).startdate) none) := by
  have htext : ∀ o, text (serverOf o).startdate = o.elim [] fun r => dayName r.first := fun o => by
    cases o with
    | none => exact (serverOf_dates none).1
    | some r => exact (serverOf_dates (some r)).1
  refine foldl_pick_chosen (fun r r' s s' hs hs' => ?_) htext ranges [] ?_
  · rw [takesMin, decide_eq_true_iff, ← not_le, ← not_le,
      strcmp_days hs hs' r.inYears.1 r'.inYears.1]
  · exact fun r => List.not_mem_nil

theorem foldl_takesMax (ranges : List (Option DayRange)) :
    Chosen (fun r => -r.last) DayRange.last ranges
      (ranges.foldl (fun m o => pick takesMax m (serverOf o).lastdate) none) := by
  have htext : ∀ o, text (serverOf o).lastdate = o.elim [] fun r => dayName r.last := fun o => by
    cases o with
    | none => exact (serverOf_dates none).2
    | some r => exact (serverOf_dates (some r)).2
  refine foldl_pick_chosen (fun r r' s s' hs hs' => ?_) htext ranges [] ?_
  · rw [takesMax, decide_eq_true_iff, ← not_le, strcmp_days' hs hs' r.inYears.2 r'.inYears.2]
    omega
  · exact fun r => List.not_mem_nil

/-- The list after the queries holds the first and the last day of all servers. -/
theorem lcsInitServerInfo_days {query : ℕ → InitQuery} {ranges : List (Option DayRange)}
    (hquery : ∀ i o, ranges[i]? = some o → query i = reported o) (hsome : ∃ r, some r ∈ ranges) :
    ∃ a b, (some a ∈ ranges ∧ ∀ r, some r ∈ ranges → a.first ≤ r.first) ∧
      (some b ∈ ranges ∧ ∀ r, some r ∈ ranges → r.last ≤ b.last) ∧
      ∃ startdate lastdate, text startdate = dayName a.first ∧ text lastdate = dayName b.last ∧
        lcsInitServerInfo query (blankList ranges.length) =
          ⟨ranges.map serverOf, startdate, zeros 32, lastdate, false⟩ := by
  obtain ⟨r₀, hr₀⟩ := hsome
  have hmin := foldl_takesMin ranges
  have hmax := foldl_takesMax ranges
  have hinit := initServers_reported 0 ranges
    (fun j o h => (congrArg query (Nat.zero_add j)).trans (hquery j o h)) none none
  have hblank : (blankList ranges.length).listinfo = ranges.map fun _ => blankServer := by
    simp [blankList]
  have hempty : (text (zeros 32)).length = 0 := by rw [text_zeros, List.length_nil]
  generalize ranges.foldl (fun m o => pick takesMin m (serverOf o).startdate) none = min at *
  generalize ranges.foldl (fun m o => pick takesMax m (serverOf o).lastdate) none = max at *
  cases min with
  | none => exact absurd hr₀ (hmin r₀)
  | some min =>
    cases max with
    | none => exact absurd hr₀ (hmax r₀)
    | some max =>
      obtain ⟨a, ha, hamin, haleast⟩ := hmin
      obtain ⟨b, hb, hbmax, hbmost⟩ := hmax
      refine ⟨a, b, ⟨ha, haleast⟩, ⟨hb, fun r hr => ?_⟩, _, _, text_dayName_memcpy a.first,
        text_dayName_memcpy b.last, ?_⟩
      · have hle : -b.last ≤ -r.last := hbmost r hr
        omega
      · rw [lcsInitServerInfo, hblank, hinit]
        simp only [blankList, hempty, hamin, hbmax]

/-! ### One day -/

/-- The servers of the list, each with its dates and a buffer for ten bytes and a terminator. -/
structure Servers (ranges : List (Option DayRange)) (infos : List ServerInfo) : Prop where
  length : infos.length = ranges.length
  dates : ∀ (i : ℕ) o p, ranges[i]? = some o → infos[i]? = some p →
    HasDates p o ∧ p.currentdate.drop 10 = zeros 22

theorem servers_init (ranges : List (Option DayRange)) : Servers ranges (ranges.map serverOf) where
  length := List.length_map ..
  dates i o p ho hp := by
    rw [List.getElem?_map, ho] at hp
    obtain rfl := Option.some.inj hp
    refine ⟨serverOf_dates o, ?_⟩
    cases o with
    | none => rfl
    | some r => rfl

theorem Servers.set {ranges : List (Option DayRange)} {infos : List ServerInfo}
    (h : Servers ranges infos) {i : ℕ} {p : ServerInfo} (hp : infos[i]? = some p) {s : Bytes}
    (hs : s.drop 10 = zeros 22) : Servers ranges (infos.set i { p with currentdate := s }) where
  length := (List.length_set ..).trans h.length
  dates j o q ho hq := by
    by_cases hij : i = j
    · subst hij
      have hlt : i < infos.length := (List.getElem?_eq_some_iff.mp hp).1
      rw [List.getElem?_set_self hlt] at hq
      obtain rfl := Option.some.inj hq
      refine ⟨?_, hs⟩
      have hdates := (h.dates i o p ho hp).1
      cases o with
      | none => exact hdates
      | some r => exact hdates
    · rw [List.getElem?_set_ne hij] at hq
      exact h.dates j o q ho hq

theorem text_dayName_zeros (d : ℤ) (n : ℕ) : text (dayName d ++ zeros n) = dayName d := by
  cases n with
  | zero => rw [zeros, List.replicate_zero, List.append_nil, text_of_noNul (dayName_noNul d)]
  | succ n => exact text_append_nul (dayName_noNul d) _

/-- A server is in its range of days exactly when both comparisons say so. -/
theorem compare_iff_covers {p : ServerInfo} {o : Option DayRange} (hp : HasDates p o) {s : Bytes}
    {d : ℤ} (hs : text s = dayName d) (hd : InYears d) :
    strcmp p.startdate s ≤ 0 ∧ strcmp s p.lastdate ≤ 0 ↔ covers o d = true := by
  cases o with
  | none =>
    refine iff_of_false (fun h => ?_) Bool.false_ne_true
    exact strcmp_empty hs hp.2 h.2
  | some r =>
    rw [strcmp_days hp.1 hs r.inYears.1 hd, strcmp_days hs hp.2 hd r.inYears.2]
    simp [covers]

/-- What a server adds to the dates handed out. -/
def handing (o : Option DayRange) (d : ℤ) : List Bytes := if covers o d then [dayName d] else []

/-- The turn for a server: the others keep their dates, and it gets the day if it is one of
its range. -/
theorem handServer_spec {ranges : List (Option DayRange)} {s : DayLoop} {d : ℤ} (hd : InYears d)
    (hservers : Servers ranges s.list.listinfo) (hcurrent : text s.list.currentdate = dayName d)
    {i : ℕ} {o : Option DayRange} (ho : ranges[i]? = some o) :
    ∃ infos, Servers ranges infos ∧
      handServer s i = ⟨{ s.list with listinfo := infos }, s.visited,
        s.handed ++ (handing o d).map fun date => (i, date)⟩ := by
  have hlt : i < s.list.listinfo.length := by
    rw [hservers.length]
    exact (List.getElem?_eq_some_iff.mp ho).1
  obtain ⟨p, hp⟩ : ∃ p, s.list.listinfo[i]? = some p := ⟨_, List.getElem?_eq_getElem hlt⟩
  obtain ⟨hdates, hbuffer⟩ := hservers.dates i o p ho hp
  have hiff := compare_iff_covers hdates hcurrent hd
  have hcopy : memcpy p.currentdate 0 (dayName d) = dayName d ++ zeros 22 := by
    rw [memcpy_start, dayName_length, hbuffer]
  by_cases hin : covers o d = true
  · refine ⟨_, hservers.set hp (List.drop_left' (dayName_length d)), ?_⟩
    simp only [handServer, hp, if_pos (hiff.mpr hin), hcurrent, hcopy, handing, if_pos hin,
      text_dayName_zeros, List.map_cons, List.map_nil]
  · refine ⟨_, hservers, ?_⟩
    simp only [handServer, hp, if_neg (mt hiff.mp hin), handing, if_neg hin, List.map_nil,
      List.append_nil]

theorem handedTo_append (list : ServerInfoList) (visited : List Bytes) (handed : List (ℕ × Bytes))
    (i j : ℕ) (dates : List Bytes) :
    DayLoop.handedTo ⟨list, visited, handed ++ dates.map fun date => (i, date)⟩ j =
      DayLoop.handedTo ⟨list, visited, handed⟩ j ++ if i = j then dates else [] := by
  by_cases hij : i = j
  · simp [DayLoop.handedTo, hij, List.filter_map, Function.comp_def]
  · simp [DayLoop.handedTo, hij, List.filter_map, Function.comp_def]

/-- The loop over the first `m` servers. -/
theorem handServers_spec {ranges : List (Option DayRange)} {s : DayLoop} {d : ℤ} (hd : InYears d)
    (hservers : Servers ranges s.list.listinfo) (hcurrent : text s.list.currentdate = dayName d)
    {m : ℕ} (hm : m ≤ ranges.length) :
    ∃ infos handed, Servers ranges infos ∧
      (List.range m).foldl handServer s =
        ⟨{ s.list with listinfo := infos }, s.visited, handed⟩ ∧
      ∀ i o, ranges[i]? = some o → DayLoop.handedTo ⟨s.list, s.visited, handed⟩ i =
        s.handedTo i ++ if i < m then handing o d else [] := by
  induction m with
  | zero => exact ⟨s.list.listinfo, s.handed, hservers, rfl, fun i o _ => by simp⟩
  | succ m ih =>
    obtain ⟨infos, handed, hinfos, hrun, hhanded⟩ := ih (Nat.le_of_succ_le hm)
    obtain ⟨o, ho⟩ : ∃ o, ranges[m]? = some o := ⟨_, List.getElem?_eq_getElem hm⟩
    obtain ⟨infos', hinfos', hturn⟩ := @handServer_spec ranges
      ⟨{ s.list with listinfo := infos }, s.visited, handed⟩ d hd hinfos hcurrent m o ho
    refine ⟨infos', handed ++ (handing o d).map fun date => (m, date), hinfos', ?_,
      fun i o' ho' => ?_⟩
    · rw [List.range_succ, List.foldl_append, hrun]
      exact hturn
    · rw [handedTo_append, hhanded i o' ho', List.append_assoc]
      by_cases him : m = i
      · subst him
        obtain rfl := Option.some.inj (ho.symm.trans ho')
        simp
      · have hiff : i < m + 1 ↔ i < m := by omega
        simp [him, hiff]

/-! ### The day after -/

theorem dayName_ne_nil (n : ℤ) : dayName n ≠ [] := fun h => by
  have hlen := dayName_length n
  rw [h] at hlen
  cases hlen

/-- One day later in any zone, in the text as in the calendar. -/
theorem dayAfter_dayName (zone : Zone) {n : ℤ} (hn : InYears n) (hnext : InYears (n + 1)) :
    ∃ outtime, dayAfter zone (dayName n) = some outtime ∧ outtime.take 10 = dayName (n + 1) := by
  have hroom : (dayName n ++ zeroClock).length < 32 := by simp [zeroClock]
  have htext : text (memcpy (zeros 32) 0 (dayName n ++ zeroClock ++ [0])) =
      dateText (midnight n) := by
    rw [← dateText_midnight, memcpy_start, List.append_assoc]
    exact text_append_nul (dateText_noNul _) _
  have hyear : 0 ≤ (midnight n).year ∧ (midnight n).year ≤ 9999 := by
    have hlow := hn.1
    exact ⟨by omega, hn.2⟩
  have hread : lcsStr2Time zone (memcpy (zeros 32) 0 (dayName n ++ zeroClock ++ [0])) =
      mktime zone (midnight n) := by
    rw [lcsStr2Time, htext, strptime_dateText (midnight_valid n) hyear]
  have hlater : localtime zone (mktime zone (midnight n) + 24 * 3600) = midnight (n + 1) := by
    rw [localtime, mktime, midnight, timegm_gmtime, midnight]
    exact congrArg gmtime (by omega)
  refine ⟨memcpy (zeros 32) 0 (dateText (midnight (n + 1))), ?_, ?_⟩
  · simp only [dayAfter, if_pos hroom, hread, lcsTime2Str, hlater, strftime_dateFormat hnext.1,
      if_pos hnext.2, Option.map_some]
  · rw [dateText_midnight, memcpy_start, List.append_assoc]
    exact List.take_left' (dayName_length _)

/-! ### The run -/

/-- The state after `k` days. -/
structure DayInv (ranges : List (Option DayRange)) (first last : ℤ) (k : ℕ) (s : DayLoop) :
    Prop where
  startdate : text s.list.startdate = dayName first
  lastdate : text s.list.lastdate = dayName last
  currentdate : k = 0 ∧ s.list.currentdate = zeros 32 ∨
    ∃ j : ℕ, k = j + 1 ∧ text s.list.currentdate = dayName (first + j)
  iscomplete : s.list.iscomplete = false
  visited : s.visited = (daysFrom first k).map dayName
  servers : Servers ranges s.list.listinfo
  handed : ∀ (i : ℕ) o, ranges[i]? = some o →
    s.handedTo i = ((daysFrom first k).filter (covers o)).map dayName

section Run

variable {ranges : List (Option DayRange)} {first last : ℤ} {k : ℕ} {s : DayLoop}

/-- The next day, while there is one. -/
theorem lcsNextDay_again (zone : Zone) (hs : DayInv ranges first last k s) (hfirst : InYears first)
    (hlast : InYears last) (hk : first + k ≤ last) :
    ∃ cur, text cur = dayName (first + k) ∧
      lcsNextDay (dayAfter zone) s.list = { s.list with currentdate := cur } := by
  have hstart : text s.list.startdate ≠ [] := hs.startdate ▸ dayName_ne_nil first
  have hend : text s.list.lastdate ≠ [] := hs.lastdate ▸ dayName_ne_nil last
  rcases hs.currentdate with ⟨rfl, hcur⟩ | ⟨j, rfl, hcur⟩
  · refine ⟨memcpy (zeros 32) 0 (dayName first ++ [0]), ?_, ?_⟩
    · rw [text_dayName_memcpy, Int.natCast_zero, Int.add_zero]
    · rw [lcsNextDay, if_neg hstart, if_neg hend, hcur, if_pos (text_zeros 32), hs.startdate]
  · have hyears : ∀ d, first ≤ d → d ≤ last → InYears d := fun d => hfirst.between hlast
    have hcurrent : text s.list.currentdate ≠ [] := hcur ▸ dayName_ne_nil _
    have hbefore : ¬ 0 ≤ strcmp s.list.currentdate s.list.lastdate := by
      rw [strcmp_days' hcur hs.lastdate (hyears _ (by omega) (by omega)) hlast]
      omega
    obtain ⟨outtime, hafter, htake⟩ := dayAfter_dayName zone
      (hyears (first + j) (by omega) (by omega)) (hyears (first + j + 1) (by omega) (by omega))
    refine ⟨memcpy (zeros 32) 0 (outtime.take 10), ?_, ?_⟩
    · rw [htake, memcpy_zeros, dayName_length, text_dayName_zeros]
      exact congrArg dayName (by omega)
    · rw [lcsNextDay, if_neg hstart, if_neg hend, if_neg hcurrent, if_neg hbefore, hcur, hafter]

/-- After the last day the list is complete. -/
theorem lcsNextDay_complete (zone : Zone) (hs : DayInv ranges first last k s) (hlast : InYears last)
    (hle : first ≤ last) (hk : first + k = last + 1) :
    lcsNextDay (dayAfter zone) s.list = { s.list with iscomplete := true } := by
  have hstart : text s.list.startdate ≠ [] := hs.startdate ▸ dayName_ne_nil first
  have hend : text s.list.lastdate ≠ [] := hs.lastdate ▸ dayName_ne_nil last
  rcases hs.currentdate with ⟨rfl, -⟩ | ⟨j, rfl, hcur⟩
  · omega
  · have hday : first + j = last := by omega
    rw [hday] at hcur
    have hcurrent : text s.list.currentdate ≠ [] := hcur ▸ dayName_ne_nil last
    have hover := (strcmp_days' hcur hs.lastdate hlast hlast).mpr le_rfl
    rw [lcsNextDay, if_neg hstart, if_neg hend, if_neg hcurrent, if_pos hover]

/-- A turn visits one more day and hands it to the servers that have it. -/
theorem dayTurn_again (zone : Zone) (hs : DayInv ranges first last k s) (hfirst : InYears first)
    (hlast : InYears last) (hk : first + k ≤ last) :
    ∃ s', dayTurn zone s = some (.again s') ∧ DayInv ranges first last (k + 1) s' := by
  obtain ⟨cur, hcur, hnext⟩ := lcsNextDay_again zone hs hfirst hlast hk
  have hd : InYears (first + k) := hfirst.between hlast (by omega) hk
  have hopen : openDay zone s =
      ⟨{ s.list with currentdate := cur }, s.visited ++ [dayName (first + k)], s.handed⟩ := by
    simp only [openDay, hnext, hcur]
  obtain ⟨infos, handed, hinfos, hrun, hhanded⟩ := @handServers_spec ranges (openDay zone s) _ hd
    (by rw [hopen]; exact hs.servers) (by rw [hopen]; exact hcur) _ le_rfl
  refine ⟨⟨{ s.list with listinfo := infos, currentdate := cur },
      s.visited ++ [dayName (first + k)], handed⟩, ?_, ?_⟩
  · have hgoes : (lcsNextDay (dayAfter zone) s.list).iscomplete = false := by
      rw [hnext]
      exact hs.iscomplete
    have hlength : (lcsNextDay (dayAfter zone) s.list).listinfo.length = ranges.length := by
      rw [hnext]
      exact hs.servers.length
    simp only [dayTurn, hgoes, hlength, Bool.false_eq_true, if_false, hrun]
    rw [hopen]
  · constructor
    · exact hs.startdate
    · exact hs.lastdate
    · exact Or.inr ⟨k, rfl, hcur⟩
    · exact hs.iscomplete
    · rw [daysFrom_succ, List.map_append, ← hs.visited]
      rfl
    · exact hinfos
    · intro i o ho
      have hlt : i < ranges.length := (List.getElem?_eq_some_iff.mp ho).1
      have h := hhanded i o ho
      rw [if_pos hlt, hopen] at h
      rw [daysFrom_succ, List.filter_append, List.map_append, ← hs.handed i o ho]
      refine h.trans (congrArg _ ?_)
      by_cases hin : covers o (first + k) = true
      · simp [handing, hin]
      · simp [handing, hin]

/-- The loop ends after the last day. -/
theorem lcsStartBdata_run (zone : Zone) {s : DayLoop} (hs : DayInv ranges first last 0 s)
    (hfirst : InYears first) (hlast : InYears last) (hle : first ≤ last) :
    ∃ final, (∀ fuel, (last - first + 1).toNat < fuel →
        whileLoop (dayTurn zone) fuel s = some final) ∧ final.list.iscomplete = true ∧
      final.visited = (days first last).map dayName ∧
      ∀ (i : ℕ) o, ranges[i]? = some o →
        final.handedTo i = ((days first last).filter (covers o)).map dayName := by
  have hlength : ∀ k s, DayInv ranges first last k s → s.visited.length = k := fun k s hs => by
    rw [hs.visited, List.length_map, daysFrom, List.length_map, List.length_range]
  obtain ⟨final, hrun, hfinal⟩ := @whileLoop_spec _ (fun _ : ℕ => dayTurn zone)
    (fun s => ∃ k : ℕ, first + k ≤ last + 1 ∧ DayInv ranges first last k s)
    (fun s => s.list.iscomplete = true ∧ s.visited = (days first last).map dayName ∧
      ∀ (i : ℕ) o, ranges[i]? = some o →
        s.handedTo i = ((days first last).filter (covers o)).map dayName)
    (fun s => (last - first + 1).toNat - s.visited.length) (last - first + 1).toNat
    (fun s hs _ => by
      obtain ⟨k, hk, hs⟩ := hs
      rcases Int.lt_or_eq_of_le hk with hlt | heq
      · obtain ⟨s', hturn, hs'⟩ := dayTurn_again zone hs hfirst hlast (by omega)
        refine Or.inl ⟨s', fun _ _ => hturn, ⟨k + 1, by omega, hs'⟩, ?_⟩
        rw [hlength k s hs, hlength (k + 1) s' hs']
        omega
      · have hcount : (last - first + 1).toNat = k := by omega
        have hnext := lcsNextDay_complete zone hs hlast hle heq
        refine Or.inr ⟨{ s with list := { s.list with iscomplete := true } }, fun _ _ => ?_, rfl,
          ?_, ?_⟩
        · simp only [dayTurn, hnext, if_true]
        · rw [days, hcount]
          exact hs.visited
        · intro i o ho
          rw [days, hcount]
          exact hs.handed i o ho)
    s ⟨0, by omega, hs⟩ (Nat.sub_le _ _)
  exact ⟨final, fun fuel hfuel => hrun _ fuel (Nat.lt_succ_self _)
    ((Nat.sub_le _ _).trans_lt hfuel), hfinal⟩

end Run

/-- The days of a server within those of all. -/
theorem filter_covers {first last : ℤ} {r : DayRange} (hfirst : first ≤ r.first)
    (hlast : r.last ≤ last) : (days first last).filter (covers (some r)) = days r.first r.last :=
  days_filter hfirst r.le hlast

theorem filter_covers_none (l : List ℤ) : l.filter (covers none) = [] :=
  List.filter_eq_nil_iff.mpr fun _ _ => Bool.false_ne_true

/-- The dates of a range in their order. -/
theorem days_increasing {a b : ℤ} (ha : InYears a) (hb : InYears b) :
    ((days a b).map dayName).Pairwise fun s t => strcmp s t < 0 := by
  have hsorted : (days a b).Pairwise fun m n => a ≤ m ∧ m < n ∧ n ≤ b := by
    rw [days, daysFrom, List.pairwise_map]
    refine (List.pairwise_lt_range).imp_of_mem fun {i j} _ hj hij => ?_
    have := List.mem_range.mp hj
    omega
  rw [List.pairwise_map]
  refine hsorted.imp fun {m n} h => ?_
  obtain ⟨ham, hmn, hnb⟩ := h
  have hm : InYears m := ha.between hb ham (by omega)
  have hn : InYears n := ha.between hb (by omega) hnb
  rw [← not_le, strcmp_days' (text_of_noNul (dayName_noNul m)) (text_of_noNul (dayName_noNul n)) hm
    hn]
  omega

/-- Every day of the calendar from the smallest to the largest date of the servers is visited
once, in their order, and then the list is complete; the threads of a server get the days of its
range. -/
theorem manager_visits_days (zone : Zone) {query : ℕ → InitQuery} {ranges : List (Option DayRange)}
    (hquery : ∀ i o, ranges[i]? = some o → query i = reported o) (hsome : ∃ r, some r ∈ ranges) :
    ∃ a b final, (some a ∈ ranges ∧ ∀ r, some r ∈ ranges → a.first ≤ r.first) ∧
      (some b ∈ ranges ∧ ∀ r, some r ∈ ranges → r.last ≤ b.last) ∧
      (∀ fuel, (b.last - a.first + 1).toNat < fuel →
        lcsStartBdata zone fuel (lcsInitServerInfo query (blankList ranges.length)) = some final) ∧
      final.list.iscomplete = true ∧
      final.visited = (days a.first b.last).map dayName ∧
      (final.visited.Pairwise fun s t => strcmp s t < 0) ∧
      (∀ tm : Tm, tm.Valid → a.first ≤ tm.day → tm.day ≤ b.last → dayText tm ∈ final.visited) ∧
      ∀ (i : ℕ) o, ranges[i]? = some o →
        final.handedTo i = o.elim [] fun r => (days r.first r.last).map dayName := by
  obtain ⟨a, b, ha, hb, startdate, lastdate, hstart, hlast, hinit⟩ :=
    lcsInitServerInfo_days hquery hsome
  have hle : a.first ≤ b.last := (ha.2 b hb.1).trans b.le
  have hinv : DayInv ranges a.first b.last 0
      ⟨⟨ranges.map serverOf, startdate, zeros 32, lastdate, false⟩, [], []⟩ :=
    ⟨hstart, hlast, Or.inl ⟨rfl, rfl⟩, rfl, rfl, servers_init ranges, fun _ _ _ => rfl⟩
  obtain ⟨final, hrun, hcomplete, hvisited, hhanded⟩ :=
    lcsStartBdata_run zone hinv a.inYears.1 b.inYears.2 hle
  refine ⟨a, b, final, ha, hb, fun fuel hfuel => ?_, hcomplete, hvisited, ?_, ?_, fun i o ho => ?_⟩
  · rw [hinit]
    exact hrun fuel hfuel
  · rw [hvisited]
    exact days_increasing a.inYears.1 b.inYears.2
  · intro tm htm hlow hhigh
    rw [hvisited, dayText_eq_dayName htm]
    refine List.mem_map_of_mem ?_
    rw [days, mem_daysFrom]
    omega
  · rw [hhanded i o ho]
    cases o with
    | none => rw [filter_covers_none]; rfl
    | some r =>
      have hmem : some r ∈ ranges := List.mem_of_getElem? ho
      rw [filter_covers (ha.2 r hmem) (hb.2 r hmem)]
      rfl

/-- 28 February to 1 March 2024. -/
def leapRange : DayRange := ⟨738943, 738945, by decide, by decide, by decide⟩

/-- 31 December 2023 and the day after. -/
def newYearRange : DayRange := ⟨738884, 738885, by decide, by decide, by decide⟩

example : dayText ⟨2024, 2, 29, 8, 30, 0⟩ = dayName 738944 := by decide

theorem manager_visits_days_sample :
    ∃ a b final, (some a ∈ [some leapRange, none, some newYearRange] ∧
        ∀ r, some r ∈ [some leapRange, none, some newYearRange] → a.first ≤ r.first) ∧
      (some b ∈ [some leapRange, none, some newYearRange] ∧
        ∀ r, some r ∈ [some leapRange, none, some newYearRange] → r.last ≤ b.last) ∧
      (∀ fuel, (b.last - a.first + 1).toNat < fuel →
        lcsStartBdata eastern fuel (lcsInitServerInfo
          (fun i => reported ([some leapRange, none, some newYearRange].getD i none))
          (blankList 3)) = some final) ∧
      final.list.iscomplete = true ∧
      final.visited = (days a.first b.last).map dayName ∧
      (final.visited.Pairwise fun s t => strcmp s t < 0) ∧
      (∀ tm : Tm, tm.Valid → a.first ≤ tm.day → tm.day ≤ b.last → dayText tm ∈ final.visited) ∧
      ∀ (i : ℕ) o, [some leapRange, none, some newYearRange][i]? = some o →
        final.handedTo i = o.elim [] fun r => (days r.first r.last).map dayName :=
  manager_visits_days eastern
    (fun i o h => by rw [List.getD_eq_getElem?_getD, h, Option.getD_some]) ⟨leapRange, by simp⟩

/-! ### The threads -/

/-- The states at the head of the loop. -/
inductive AtHead (zone : Zone) (list : ServerInfoList) : DayLoop → Prop
  | start : AtHead zone list ⟨list, [], []⟩
  | again {s s' : DayLoop} (hs : AtHead zone list s) (h : dayTurn zone s = some (.again s')) :
      AtHead zone list s'

/-- The state after the first `i` servers of a day. -/
def passed (zone : Zone) (s : DayLoop) (i : ℕ) : DayLoop :=
  (List.range i).foldl handServer (openDay zone s)

theorem passed_succ (zone : Zone) (s : DayLoop) (i : ℕ) :
    passed zone s (i + 1) = handServer (passed zone s i) i := by
  rw [passed, List.range_succ, List.foldl_append, passed]
  rfl

theorem handServer_length (s : DayLoop) (i : ℕ) :
    (handServer s i).list.listinfo.length = s.list.listinfo.length := by
  unfold handServer
  split
  · rfl
  · split
    · exact List.length_set ..
    · rfl

theorem passed_length (zone : Zone) (s : DayLoop) (i : ℕ) :
    (passed zone s i).list.listinfo.length =
      (lcsNextDay (dayAfter zone) s.list).listinfo.length := by
  induction i with
  | zero => rfl
  | succ i ih => rw [passed_succ, handServer_length, ih]

/-- A day that the loop goes on with. -/
def Goes (zone : Zone) (s : DayLoop) : Prop :=
  (lcsNextDay (dayAfter zone) s.list).iscomplete = false

theorem dayTurn_goes {zone : Zone} {s : DayLoop} (h : Goes zone s) :
    dayTurn zone s =
      some (.again (passed zone s (lcsNextDay (dayAfter zone) s.list).listinfo.length)) := by
  unfold Goes at h
  simp only [dayTurn, h, Bool.false_eq_true, if_false]
  rfl

/-- The list of the manager is that of the loop, however its threads are scheduled. -/
def InTurn (zone : Zone) (start : ServerInfoList) (m : Manager) : Prop :=
  ∃ s, AtHead zone start s ∧
    match m.pc with
    | .nextDay | .wait _ => m.list = s.list
    | .server i => Goes zone s ∧ i ≤ m.list.listinfo.length ∧ m.list = (passed zone s i).list
    | .create i | .increase i =>
      Goes zone s ∧ i < m.list.listinfo.length ∧ m.list = (passed zone s (i + 1)).list
    | .done => m.list = lcsNextDay (dayAfter zone) s.list ∧ m.list.iscomplete = true

/-- The head of the loop over the servers. -/
theorem serverTurn_inTurn {zone : Zone} {start : ServerInfoList} {m : Manager} {i : ℕ}
    (hpc : m.pc = .server i) (hm : InTurn zone start m) : InTurn zone start (serverTurn m i) := by
  obtain ⟨pc, list, pool⟩ := m
  obtain rfl : pc = .server i := hpc
  obtain ⟨s, hs, hgoes, hle, hlist⟩ := hm
  obtain rfl : list = (passed zone s i).list := hlist
  cases hp : (passed zone s i).list.listinfo[i]? with
  | none =>
    have hend : i = (passed zone s i).list.listinfo.length :=
      le_antisymm hle (List.getElem?_eq_none_iff.mp hp)
    rw [passed_length] at hend
    refine ⟨passed zone s i, .again hs ?_, ?_⟩
    · rw [dayTurn_goes hgoes, ← hend]
    · simp only [serverTurn, hp]
  | some p =>
    have hlt : i < (passed zone s i).list.listinfo.length := (List.getElem?_eq_some_iff.mp hp).1
    by_cases hin : strcmp p.startdate (passed zone s i).list.currentdate ≤ 0 ∧
        strcmp (passed zone s i).list.currentdate p.lastdate ≤ 0
    · refine ⟨s, hs, ?_⟩
      simp only [serverTurn, hp, if_pos hin]
      refine ⟨hgoes, ?_, ?_⟩
      · rwa [List.length_set]
      · simp only [passed_succ, handServer, hp, if_pos hin]
    · refine ⟨s, hs, ?_⟩
      simp only [serverTurn, hp, if_neg hin]
      refine ⟨hgoes, hlt, ?_⟩
      simp only [passed_succ, handServer, hp, if_neg hin]

theorem managerStep_inTurn {zone : Zone} {start : ServerInfoList} {m m' : Manager}
    {e : ManagerEvent} (hm : InTurn zone start m) (h : managerStep (dayAfter zone) m e = some m') :
    InTurn zone start m' := by
  obtain ⟨pc, list, pool⟩ := m
  cases e with
  | thread k ok =>
    obtain ⟨pool', -, rfl⟩ := Option.map_eq_some_iff.mp h
    exact hm
  | main created =>
    cases pc with
    | nextDay =>
      cases h
      obtain ⟨s, hs, hlist⟩ := hm
      obtain rfl : list = s.list := hlist
      cases hcomplete : (lcsNextDay (dayAfter zone) s.list).iscomplete with
      | true =>
        refine ⟨s, hs, ?_⟩
        simp only [hcomplete, if_true, and_true]
      | false =>
        refine ⟨s, hs, ?_⟩
        simp only [Bool.false_eq_true, if_false]
        exact ⟨hcomplete, Nat.zero_le _, rfl⟩
    | server i =>
      cases h
      exact serverTurn_inTurn rfl hm
    | create i =>
      cases h
      exact hm
    | increase i =>
      cases h
      exact hm
    | wait w =>
      rcases managerStep_wait h with ⟨w', -, rfl⟩ | ⟨-, rfl⟩
      · exact hm
      · exact hm
    | done => cases h

/-- Over every schedule the manager goes through the days of the loop. -/
theorem manager_inTurn (zone : Zone) (start : ServerInfoList) {es : List ManagerEvent} {m : Manager}
    (h : run (managerStep (dayAfter zone)) (managerStart start) es = some m) :
    InTurn zone start m :=
  AllSteps.invariant (C := fun _ _ => True) (fun _ _ _ hs _ hstep => managerStep_inTurn hs hstep)
    ⟨_, .start, rfl⟩ (allSteps_of_forall (fun _ _ => trivial) _ es) h

end MemoryLeak.Cluster.Days
