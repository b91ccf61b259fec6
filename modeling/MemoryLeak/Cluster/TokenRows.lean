import MemoryLeak.Cluster.Collect

/-!
# Rows of any tokens

What `lcs_hcollect005_sum` makes of any text. Its tokens may end in the middle of a record,
or be too long for a row, and one `data` serves every `sscanf`: a token that is no number
leaves the last number before it. When the file is written the rows are freed, each before the
next one is looked up in it.
-/
namespace MemoryLeak.Cluster
open MemoryLeak.CBytes MemoryLeak.CText MemoryLeak.Loops MemoryLeak.GroupBy LcsMergeCounting

/-- The ten tokens of a record. -/
structure TokenRow where
  date : Bytes
  hour : Bytes
  counters : Fin 8 → Bytes

namespace TokenRow

def tokens (r : TokenRow) : List Bytes := r.date :: r.hour :: List.ofFn r.counters

def key (r : TokenRow) : Bytes × Bytes := (r.date, r.hour)

/-- Date and hour fit their arrays. -/
structure FieldsFit (r : TokenRow) : Prop where
  date : r.date.length < 12
  hour : r.hour.length < 4

/-- Date and hour fit, and each number is an `int`. -/
structure Fits (r : TokenRow) : Prop extends r.FieldsFit where
  counters : ∀ c, ∀ v ∈ scanD (r.counters c), -2 ^ 31 ≤ v ∧ v < 2 ^ 31

/-- Date and hour are strings. -/
def NoNul (r : TokenRow) : Prop := (0 : UInt8) ∉ r.date ∧ (0 : UInt8) ∉ r.hour

end TokenRow

/-- Where a run leaves the defined behaviour: a null token is copied or converted, a copy
ends behind its field, the merge fails, or a node is read that has been freed. -/
inductive Fault where
  | nullToken
  | pastDate
  | pastHour
  | merge
  | freedNode
  deriving DecidableEq

/-- `strcat` to an empty field. -/
def strcatField (n : ℕ) (fault : Fault) (p : Bytes) : Except Fault (CStr n) :=
  match strcatEmpty n p with
  | some s => .ok s
  | none => .error fault

/-- The rows that `while(p)` reads, `scan` for what `sscanf(p, "%d", &data)` leaves in `data`. -/
def collectTokens (scan : BitVec 32 → Bytes → BitVec 32) :
    List Bytes → BitVec 32 → Except Fault (List LcsMergeCounting)
  | [], _ => .ok []
  | p :: p₁ :: p₂ :: p₃ :: p₄ :: p₅ :: p₆ :: p₇ :: p₈ :: p₉ :: tokens, data => do
    let date ← strcatField 12 .pastDate p
    let hour ← strcatField 4 .pastHour p₁
    let totalcall := scan data p₂
    let totalfullchannel := scan totalcall p₃
    let viettelauto := scan totalfullchannel p₄
    let viettelfull := scan viettelauto p₅
    let mobileauto := scan viettelfull p₆
    let mobilefull := scan mobileauto p₇
    let vinaauto := scan mobilefull p₈
    let vinafull := scan vinaauto p₉
    let rows ← collectTokens scan tokens vinafull
    .ok (⟨date, hour, totalcall, totalfullchannel, viettelauto, viettelfull, mobileauto, mobilefull,
      vinaauto, vinafull⟩ :: rows)
  | p :: tokens, _ => do
    let _ ← strcatField 12 .pastDate p
    -- the tokens end: the next one is null, or one of those behind the hour
    match tokens with
    | [] => .error .nullToken
    | p₁ :: _ => do
      let _ ← strcatField 4 .pastHour p₁
      .error .nullToken

/-- `lcs_hcollect005_sum` up to `lcs_merge005_list`, with the rows and the new text of the file. -/
def mergeTokens (scan : BitVec 32 → Bytes → BitVec 32) (text : Bytes) :
    Except Fault (List LcsMergeCounting × Option Bytes) := do
  let rows ← collectTokens scan (strtoks blank text) 0
  if rows.isEmpty then .ok (rows, none)
  else
    match lcsMerge005List (rows.length + 1) rows rows.length with
    | some file => .ok (rows, some file)
    | none => .error .merge

/-- The nodes of the list of rows with the `next` of each, and where the closing loop stands. -/
structure FreeState where
  heap : ℕ → Option (Option ℕ)
  node : Option ℕ

/-- `n` nodes, each linked to the one behind it, and the first of them. -/
def listOfRows (n : ℕ) : FreeState where
  heap := fun a => if a < n then some (if a + 1 < n then some (a + 1) else none) else none
  node := if 0 < n then some 0 else none

/-- A turn of `while(node)`: `free(node); node = node->next`. -/
def freeTurn (s : FreeState) : Option (Turn FreeState) :=
  match s.node with
  | none => some (.leave s)
  | some a => do
    let _ ← s.heap a
    let heap := Function.update s.heap a none
    let next ← heap a
    some (.again ⟨heap, next⟩)

/-- `lcs_hcollect005_sum` with the way in which a run fails; it reports no error itself. -/
def collectText (scan : BitVec 32 → Bytes → BitVec 32) (text : Bytes) :
    Except Fault (Option Bytes) := do
  let (rows, file) ← mergeTokens scan text
  match whileLoop freeTurn (rows.length + 1) (listOfRows rows.length) with
  | some _ => .ok file
  | none => .error .freedNode

/-- The records of ten tokens; a rest is left out. -/
def completeRecords : List Bytes → List TokenRow
  | p :: p₁ :: p₂ :: p₃ :: p₄ :: p₅ :: p₆ :: p₇ :: p₈ :: p₉ :: tokens =>
    ⟨p, p₁, ![p₂, p₃, p₄, p₅, p₆, p₇, p₈, p₉]⟩ :: completeRecords tokens
  | _ => []

/-! ### Reading a record -/

/-- What a record is read into: `data` goes through its counters. -/
structure Reading (scan : BitVec 32 → Bytes → BitVec 32) (data : BitVec 32) (r : TokenRow)
    (l : LcsMergeCounting) : Prop where
  date : l.date.bytes = r.date
  hour : l.hour.bytes = r.hour
  counts : ∀ c : Fin 8, l.counts c = ((List.ofFn r.counters).take (c + 1)).foldl scan data

/-- What records are read into, one after the other. -/
inductive Readings (scan : BitVec 32 → Bytes → BitVec 32) :
    BitVec 32 → List TokenRow → List LcsMergeCounting → Prop where
  | nil {data : BitVec 32} : Readings scan data [] []
  | cons {data : BitVec 32} {r : TokenRow} {l : LcsMergeCounting} {rows : List TokenRow}
    {ls : List LcsMergeCounting} (head : Reading scan data r l)
    (tail : Readings scan ((List.ofFn r.counters).foldl scan data) rows ls) :
    Readings scan data (r :: rows) (l :: ls)

/-- The row of a record, its date and hour copied. -/
def readRow (scan : BitVec 32 → Bytes → BitVec 32) (data : BitVec 32) (r : TokenRow)
    (date : CStr 12) (hour : CStr 4) : LcsMergeCounting :=
  let value (i : ℕ) := ((List.ofFn r.counters).take i).foldl scan data
  ⟨date, hour, value 1, value 2, value 3, value 4, value 5, value 6, value 7, value 8⟩

section Tokens

variable {scan : BitVec 32 → Bytes → BitVec 32} {data : BitVec 32} {r : TokenRow}
  {rows : List TokenRow} {ls : List LcsMergeCounting}

theorem Reading.key {l : LcsMergeCounting} (h : Reading scan data r l) :
    (l.date.bytes, l.hour.bytes) = r.key :=
  Prod.ext h.date h.hour

theorem Readings.length_eq (h : Readings scan data rows ls) : ls.length = rows.length := by
  induction h with
  | nil => rfl
  | cons _ _ ih => rw [List.length_cons, List.length_cons, ih]

theorem Readings.keys (h : Readings scan data rows ls) :
    ls.map (fun l => (l.date.bytes, l.hour.bytes)) = rows.map TokenRow.key := by
  induction h with
  | nil => rfl
  | cons head _ ih => rw [List.map_cons, List.map_cons, head.key, ih]

/-- Date and hour of a record that fits, as they are copied. -/
theorem TokenRow.FieldsFit.fields (h : r.FieldsFit) (hnul : r.NoNul)
    (scan : BitVec 32 → Bytes → BitVec 32) (data : BitVec 32) :
    ∃ (date : CStr 12) (hour : CStr 4), date.bytes = r.date ∧ hour.bytes = r.hour ∧
      Reading scan data r (readRow scan data r date hour) := by
  refine ⟨⟨r.date, h.date, hnul.1⟩, ⟨r.hour, h.hour, hnul.2⟩, rfl, rfl, rfl, rfl, fun c => ?_⟩
  fin_cases c <;> rfl

theorem strcatEmpty_some {n : ℕ} {p : Bytes} {s : CStr n} (h : strcatEmpty n p = some s) :
    p.length < n := by
  rw [strcatEmpty] at h
  split_ifs at h with hfits
  exact hfits.1

theorem strcatField_bytes {n : ℕ} (fault : Fault) (s : CStr n) :
    strcatField n fault s.bytes = .ok s := by
  rw [strcatField, strcatEmpty_bytes]

theorem strcatField_ok {n : ℕ} {fault : Fault} {p : Bytes} {s : CStr n}
    (h : strcatField n fault p = .ok s) : p.length < n := by
  rw [strcatField] at h
  split at h
  · exact strcatEmpty_some ‹_›
  · cases h

/-! ### Tokens that end anywhere -/

theorem collectTokens_fits (h : r.FieldsFit) (hnul : r.NoNul)
    (scan : BitVec 32 → Bytes → BitVec 32) (data : BitVec 32) (rest : List Bytes) :
    ∃ l, Reading scan data r l ∧ collectTokens scan (r.tokens ++ rest) data =
      (collectTokens scan rest ((List.ofFn r.counters).foldl scan data)).map (l :: ·) := by
  obtain ⟨date, hour, hdate, hhour, hread⟩ := h.fields hnul scan data
  have htokens : r.tokens ++ rest =
      date.bytes :: hour.bytes :: r.counters 0 :: r.counters 1 :: r.counters 2 :: r.counters 3 ::
        r.counters 4 :: r.counters 5 :: r.counters 6 :: r.counters 7 :: rest := by
    rw [hdate, hhour]
    rfl
  refine ⟨_, hread, ?_⟩
  rw [htokens, collectTokens, strcatField_bytes, strcatField_bytes, map_eq_bind]
  rfl

theorem fits_of_collectTokens {rest : List Bytes}
    (h : collectTokens scan (r.tokens ++ rest) data = .ok ls) : r.FieldsFit := by
  have htokens : r.tokens ++ rest =
      r.date :: r.hour :: r.counters 0 :: r.counters 1 :: r.counters 2 :: r.counters 3 ::
        r.counters 4 :: r.counters 5 :: r.counters 6 :: r.counters 7 :: rest := rfl
  rw [htokens, collectTokens] at h
  obtain ⟨date, hdate, h⟩ := bind_eq_ok_iff.mp h
  obtain ⟨hour, hhour, -⟩ := bind_eq_ok_iff.mp h
  exact ⟨strcatField_ok hdate, strcatField_ok hhour⟩

/-- A record that is not complete is not read. -/
theorem collectTokens_short {tokens : List Bytes} (hne : tokens ≠ []) (hlen : tokens.length < 10) :
    collectTokens scan tokens data ≠ .ok ls := by
  intro h
  unfold collectTokens at h
  split at h
  · exact hne rfl
  · simp only [List.length_cons] at hlen
    omega
  · obtain ⟨_, -, h⟩ := bind_eq_ok_iff.mp h
    split at h
    · cases h
    · obtain ⟨_, -, h⟩ := bind_eq_ok_iff.mp h
      cases h

/-- The records and the rest of tokens. -/
theorem completeRecords_spec (tokens : List Bytes) :
    ∃ rest, tokens = (completeRecords tokens).flatMap TokenRow.tokens ++ rest ∧
      rest.length = tokens.length % 10 := by
  fun_induction completeRecords tokens with
  | case1 p p₁ p₂ p₃ p₄ p₅ p₆ p₇ p₈ p₉ tokens ih =>
    obtain ⟨rest, heq, hlen⟩ := ih
    refine ⟨rest, ?_, ?_⟩
    · rw [List.flatMap_cons, List.append_assoc, ← heq]
      rfl
    · simp only [List.length_cons]
      omega
  | case2 tokens hshort =>
    refine ⟨tokens, rfl, (Nat.mod_eq_of_lt ?_).symm⟩
    by_contra hlen
    rcases tokens with _ | ⟨p, _ | ⟨p₁, _ | ⟨p₂, _ | ⟨p₃, _ | ⟨p₄, _ | ⟨p₅, _ | ⟨p₆, _ | ⟨p₇,
      _ | ⟨p₈, _ | ⟨p₉, ts⟩⟩⟩⟩⟩⟩⟩⟩⟩⟩
    case cons.cons.cons.cons.cons.cons.cons.cons.cons.cons =>
      exact hshort p p₁ p₂ p₃ p₄ p₅ p₆ p₇ p₈ p₉ ts rfl
    all_goals simp at hlen

/-- Records that fit are read, and then the rest. -/
theorem collectTokens_records (hfits : ∀ r ∈ rows, r.FieldsFit) (hnul : ∀ r ∈ rows, r.NoNul)
    (scan : BitVec 32 → Bytes → BitVec 32) (data : BitVec 32) (rest : List Bytes) :
    ∃ ls data', Readings scan data rows ls ∧
      collectTokens scan (rows.flatMap TokenRow.tokens ++ rest) data =
        (collectTokens scan rest data').map (ls ++ ·) := by
  induction rows generalizing data with
  | nil =>
    refine ⟨[], data, .nil, ?_⟩
    cases hrest : collectTokens scan rest data with
    | error f => exact hrest
    | ok ls => exact hrest
  | cons r rows ih =>
    rw [List.forall_mem_cons] at hfits hnul
    obtain ⟨l, hl, hrun⟩ := collectTokens_fits hfits.1 hnul.1 scan data
      (rows.flatMap TokenRow.tokens ++ rest)
    obtain ⟨ls, data', hls, htail⟩ := ih hfits.2 hnul.2 ((List.ofFn r.counters).foldl scan data)
    refine ⟨l :: ls, data', .cons hl hls, ?_⟩
    rw [List.flatMap_cons, List.append_assoc, hrun, htail]
    cases collectTokens scan rest data' with
    | error f => rfl
    | ok ls' => rfl

/-- What is read fits, and no token is left. -/
theorem fits_of_collectTokens_records (hnul : ∀ r ∈ rows, r.NoNul) {rest : List Bytes}
    (hrest : rest.length < 10)
    (h : collectTokens scan (rows.flatMap TokenRow.tokens ++ rest) data = .ok ls) :
    (∀ r ∈ rows, r.FieldsFit) ∧ rest = [] := by
  induction rows generalizing data ls with
  | nil =>
    refine ⟨by simp, ?_⟩
    by_contra hne
    exact collectTokens_short hne hrest h
  | cons r rows ih =>
    rw [List.forall_mem_cons] at hnul
    rw [List.flatMap_cons, List.append_assoc] at h
    have hr := fits_of_collectTokens h
    obtain ⟨l, -, hrun⟩ := collectTokens_fits hr hnul.1 scan data
      (rows.flatMap TokenRow.tokens ++ rest)
    rw [hrun] at h
    cases htail : collectTokens scan (rows.flatMap TokenRow.tokens ++ rest)
        ((List.ofFn r.counters).foldl scan data) with
    | error f =>
      rw [htail] at h
      cases h
    | ok ls' =>
      obtain ⟨hrows, hnil⟩ := ih hnul.2 htail
      exact ⟨List.forall_mem_cons.mpr ⟨hr, hrows⟩, hnil⟩

end Tokens

/-- The tokens of the text are read without a fault and its complete records merged. -/
def Merged (scan : BitVec 32 → Bytes → BitVec 32) (text : Bytes) : Prop :=
  ∃ ls out, Readings scan 0 (completeRecords (strtoks blank text)) ls ∧
    IsGroupSum (ls.map pair) (out.map pair) ∧ mergeTokens scan text = .ok (ls, fileOf out)

/-- The run ends with the merged complete records of the text. -/
def Robust (scan : BitVec 32 → Bytes → BitVec 32) (text : Bytes) : Prop :=
  ∃ ls out, Readings scan 0 (completeRecords (strtoks blank text)) ls ∧
    IsGroupSum (ls.map pair) (out.map pair) ∧ collectText scan text = .ok (fileOf out)

theorem mergeTokens_rows {scan : BitVec 32 → Bytes → BitVec 32} {text : Bytes}
    {ls : List LcsMergeCounting} (hrows : collectTokens scan (strtoks blank text) 0 = .ok ls)
    (hint : ls.length < 2147483647) :
    ∃ out : List LcsMergeCounting, IsGroupSum (ls.map pair) (out.map pair) ∧
      mergeTokens scan text = .ok (ls, fileOf out) := by
  by_cases hne : ls = []
  · refine ⟨[], ?_, bind_eq_ok_iff.mpr ⟨ls, hrows, if_pos (List.isEmpty_iff.mpr hne)⟩⟩
    rw [hne]
    exact .refl List.Pairwise.nil
  · obtain ⟨out, hgroup, hrun⟩ := lcsMerge005List_spec hne hint
    refine ⟨out, hgroup, ?_⟩
    have hout : out ≠ [] := mt (merged_eq_nil_iff hgroup).mp hne
    have hfile := hrun (ls.length + 1) (Nat.lt_succ_self _)
    refine bind_eq_ok_iff.mpr ⟨ls, hrows, ?_⟩
    rw [if_neg (mt List.isEmpty_iff.mp hne), hfile, fileOf, if_neg (mt List.isEmpty_iff.mp hout)]

/-- A merge that gives a file has counted its rows with an `int`. -/
theorem int_of_mergeTokens {scan : BitVec 32 → Bytes → BitVec 32} {text : Bytes}
    {ls : List LcsMergeCounting} {file : Option Bytes}
    (h : mergeTokens scan text = .ok (ls, file)) :
    collectTokens scan (strtoks blank text) 0 = .ok ls ∧ ls.length < 2147483647 := by
  obtain ⟨rows, hrows, h⟩ := bind_eq_ok_iff.mp h
  by_cases hempty : rows.isEmpty
  · rw [if_pos hempty] at h
    cases h
    rw [List.isEmpty_iff] at hempty
    exact ⟨hrows, by simp [hempty]⟩
  · rw [if_neg hempty] at h
    cases hmerge : lcsMerge005List (rows.length + 1) rows rows.length with
    | none =>
      rw [hmerge] at h
      cases h
    | some text' =>
      rw [hmerge] at h
      cases h
      refine ⟨hrows, ?_⟩
      unfold lcsMerge005List at hmerge
      obtain ⟨n, hn, -⟩ := Option.bind_eq_some_iff.mp hmerge
      unfold intOf at hn
      split_ifs at hn
      omega

/-- The closing loop reads the first node after it has freed it. -/
theorem freeLoop_eq (n fuel : ℕ) :
    whileLoop freeTurn (fuel + 1) (listOfRows n) = if n = 0 then some (listOfRows n) else none := by
  rcases Nat.eq_zero_or_pos n with rfl | hpos
  · have hleave : freeTurn (listOfRows 0) = some (.leave (listOfRows 0)) := rfl
    rw [whileLoop_leave hleave (Nat.succ_pos fuel), if_pos rfl]
  · have hturn : freeTurn (listOfRows n) = none := by
      simp [freeTurn, listOfRows, hpos]
    rw [whileLoop, hturn, if_neg hpos.ne']

theorem collectText_of_mergeTokens {scan : BitVec 32 → Bytes → BitVec 32} {text : Bytes}
    {ls : List LcsMergeCounting} {file : Option Bytes}
    (h : mergeTokens scan text = .ok (ls, file)) :
    collectText scan text = if ls = [] then .ok file else .error .freedNode := by
  simp only [collectText, h, bind, Except.bind, freeLoop_eq, List.length_eq_zero_iff]
  by_cases hnil : ls = []
  · rw [if_pos hnil, if_pos hnil]
  · rw [if_neg hnil, if_neg hnil]

theorem completeRecords_noNul (text : Bytes) :
    ∀ r ∈ completeRecords (strtoks blank text), r.NoNul := by
  intro r hr
  obtain ⟨rest, heq, -⟩ := completeRecords_spec (strtoks blank text)
  have htoken : ∀ t ∈ r.tokens, (0 : UInt8) ∉ t := by
    intro t ht h0
    have hmem : t ∈ strtoks blank text := by
      rw [heq]
      exact List.mem_append_left _ (List.mem_flatMap.mpr ⟨r, hr, ht⟩)
    exact ((strtoks_isToken hmem).2 0 h0).2 rfl
  exact ⟨htoken _ (by simp [TokenRow.tokens]), htoken _ (by simp [TokenRow.tokens])⟩

/-- The text is read and merged if and only if it is of complete records, no more than an `int`
counts, and their dates and hours fit their arrays. -/
theorem merged_iff (scan : BitVec 32 → Bytes → BitVec 32) (text : Bytes) :
    Merged scan text ↔ (strtoks blank text).length % 10 = 0 ∧
      (completeRecords (strtoks blank text)).length < 2147483647 ∧
      ∀ r ∈ completeRecords (strtoks blank text), r.date.length < 12 ∧ r.hour.length < 4 := by
  have hnul := completeRecords_noNul text
  obtain ⟨rest, htokens, hlen⟩ := completeRecords_spec (strtoks blank text)
  constructor
  · rintro ⟨ls, _, hls, -, hrun⟩
    obtain ⟨hread, hint⟩ := int_of_mergeTokens hrun
    rw [htokens] at hread
    obtain ⟨hfits, rfl⟩ := fits_of_collectTokens_records hnul
      (hlen ▸ Nat.mod_lt _ (Nat.succ_pos 9)) hread
    exact ⟨hlen.symm, hls.length_eq ▸ hint, fun r hr => ⟨(hfits r hr).date, (hfits r hr).hour⟩⟩
  · rintro ⟨hten, hint, hfits⟩
    obtain rfl : rest = [] := List.length_eq_zero_iff.mp (hlen.trans hten)
    obtain ⟨ls, data, hls, hrun⟩ := collectTokens_records
      (fun r hr => ⟨(hfits r hr).1, (hfits r hr).2⟩) hnul scan 0 []
    have hrows : collectTokens scan (strtoks blank text) 0 = .ok ls := by
      rw [htokens, hrun]
      exact congrArg Except.ok (List.append_nil ls)
    obtain ⟨out, hgroup, hout⟩ := mergeTokens_rows hrows (hls.length_eq ▸ hint)
    exact ⟨ls, out, hls, hgroup, hout⟩

/-- A run ends well if and only if the text has no token: one that reads and merges all records
reads a freed node in the end. Up to there it goes well exactly if the text is of complete
records, no more than an `int` counts, and their dates and hours fit their arrays. -/
theorem robust_parsing_iff (scan : BitVec 32 → Bytes → BitVec 32) (text : Bytes) :
    (Robust scan text ↔ strtoks blank text = []) ∧
    (Merged scan text ↔ (strtoks blank text).length % 10 = 0 ∧
      (completeRecords (strtoks blank text)).length < 2147483647 ∧
      ∀ r ∈ completeRecords (strtoks blank text), r.date.length < 12 ∧ r.hour.length < 4) := by
  refine ⟨⟨?_, ?_⟩, merged_iff scan text⟩
  · rintro ⟨_, _, -, -, hrun⟩
    obtain ⟨⟨rows, file⟩, hmerge, -⟩ := bind_eq_ok_iff.mp hrun
    rw [collectText_of_mergeTokens hmerge] at hrun
    split_ifs at hrun with hnil
    subst hnil
    by_contra hne
    have hread := (int_of_mergeTokens hmerge).1
    -- rows were read, or not all tokens were
    obtain ⟨rest, htokens, hlen⟩ := completeRecords_spec (strtoks blank text)
    rw [htokens] at hread hne
    obtain ⟨hfits, rfl⟩ := fits_of_collectTokens_records (completeRecords_noNul text)
      (hlen ▸ Nat.mod_lt _ (Nat.succ_pos 9)) hread
    obtain ⟨ls, _, hls, hread'⟩ :=
      collectTokens_records hfits (completeRecords_noNul text) scan 0 []
    rw [hread', collectTokens] at hread
    obtain rfl : ls = [] := (List.append_nil ls).symm.trans (Except.ok.inj hread)
    rw [List.length_eq_zero_iff.mp hls.length_eq.symm] at hne
    exact hne rfl
  · intro hnil
    have hread : collectTokens scan (strtoks blank text) 0 = .ok [] := by rw [hnil]; rfl
    obtain ⟨out, hgroup, hmerge⟩ := mergeTokens_rows hread (by simp)
    refine ⟨[], out, ?_, hgroup, ?_⟩
    · rw [hnil]
      exact .nil
    · rw [collectText_of_mergeTokens hmerge, if_pos rfl]

/-- What `sscanf` leaves in `data` where it is defined. -/
def carry (data : BitVec 32) (p : Bytes) : BitVec 32 := (scanD p).elim data (BitVec.ofInt 32)

/-- One token, a date of twelve bytes and an hour of four; and a record that fits, whose node is
read when it has been freed. -/
theorem robust_parsing_fails :
    collectText carry [97, 10] = .error .nullToken ∧
    collectText carry ([9].intercalate (List.replicate 12 97 :: List.replicate 9 [48]) ++ [10]) =
      .error .pastDate ∧
    collectText carry ([9].intercalate ([50] :: List.replicate 4 97 :: List.replicate 8 [48]) ++
      [10]) = .error .pastHour ∧
    collectText carry ([9].intercalate (List.replicate 10 [48]) ++ [10]) = .error .freedNode := by
  decide +kernel

/-! ### Where conversions are defined -/

theorem scanData_eq_some_iff {data w : BitVec 32} {p : Bytes} :
    scanData data p = some w ↔
      (∀ v ∈ scanD p, -2 ^ 31 ≤ v ∧ v < 2 ^ 31) ∧ carry data p = w := by
  cases hp : scanD p with
  | none => simp [scanData, carry, hp]
  | some v =>
    simp only [scanData, carry, hp, Option.mem_def, Option.some.injEq, forall_eq', Option.elim_some]
    split_ifs with hrange
    · rw [and_iff_right hrange, Option.some.injEq]
    · simp only [hrange, false_and]

/-- A record that fits is read into a row. -/
theorem rowsOfTokens_fits {r : TokenRow} (h : r.Fits) (hnul : r.NoNul) (data : BitVec 32)
    (rest : List Bytes) :
    ∃ l, Reading carry data r l ∧ rowsOfTokens (r.tokens ++ rest) data =
      (rowsOfTokens rest ((List.ofFn r.counters).foldl carry data)).map (l :: ·) := by
  obtain ⟨date, hour, hdate, hhour, hread⟩ := h.toFieldsFit.fields hnul carry data
  have htokens : r.tokens ++ rest =
      date.bytes :: hour.bytes :: r.counters 0 :: r.counters 1 :: r.counters 2 :: r.counters 3 ::
        r.counters 4 :: r.counters 5 :: r.counters 6 :: r.counters 7 :: rest := by
    rw [hdate, hhour]
    rfl
  have hscan : ∀ c data, scanData data (r.counters c) = some (carry data (r.counters c)) :=
    fun c data => scanData_eq_some_iff.mpr ⟨h.counters c, rfl⟩
  refine ⟨_, hread, ?_⟩
  rw [htokens, rowsOfTokens]
  simp only [strcatEmpty_bytes, hscan, bind, Option.bind_some]
  rw [Option.map_eq_bind]
  rfl

/-- What a record that is read gives. -/
theorem rowsOfTokens_row {r : TokenRow} {rest : List Bytes} {data : BitVec 32}
    {ls : List LcsMergeCounting} (h : rowsOfTokens (r.tokens ++ rest) data = some ls) :
    ∃ date hour rows, strcatEmpty 12 r.date = some date ∧ strcatEmpty 4 r.hour = some hour ∧
      (∀ c, ∀ v ∈ scanD (r.counters c), -2 ^ 31 ≤ v ∧ v < 2 ^ 31) ∧
      rowsOfTokens rest ((List.ofFn r.counters).foldl carry data) = some rows ∧
      ls = readRow carry data r date hour :: rows := by
  have htokens : r.tokens ++ rest =
      r.date :: r.hour :: r.counters 0 :: r.counters 1 :: r.counters 2 :: r.counters 3 ::
        r.counters 4 :: r.counters 5 :: r.counters 6 :: r.counters 7 :: rest := rfl
  rw [htokens, rowsOfTokens] at h
  obtain ⟨date, hdate, h⟩ := Option.bind_eq_some_iff.mp h
  obtain ⟨hour, hhour, h⟩ := Option.bind_eq_some_iff.mp h
  obtain ⟨_, h0, h⟩ := Option.bind_eq_some_iff.mp h
  obtain ⟨_, h1, h⟩ := Option.bind_eq_some_iff.mp h
  obtain ⟨_, h2, h⟩ := Option.bind_eq_some_iff.mp h
  obtain ⟨_, h3, h⟩ := Option.bind_eq_some_iff.mp h
  obtain ⟨_, h4, h⟩ := Option.bind_eq_some_iff.mp h
  obtain ⟨_, h5, h⟩ := Option.bind_eq_some_iff.mp h
  obtain ⟨_, h6, h⟩ := Option.bind_eq_some_iff.mp h
  obtain ⟨_, h7, h⟩ := Option.bind_eq_some_iff.mp h
  obtain ⟨rows, hrows, h⟩ := Option.bind_eq_some_iff.mp h
  obtain ⟨hfit0, rfl⟩ := scanData_eq_some_iff.mp h0
  obtain ⟨hfit1, rfl⟩ := scanData_eq_some_iff.mp h1
  obtain ⟨hfit2, rfl⟩ := scanData_eq_some_iff.mp h2
  obtain ⟨hfit3, rfl⟩ := scanData_eq_some_iff.mp h3
  obtain ⟨hfit4, rfl⟩ := scanData_eq_some_iff.mp h4
  obtain ⟨hfit5, rfl⟩ := scanData_eq_some_iff.mp h5
  obtain ⟨hfit6, rfl⟩ := scanData_eq_some_iff.mp h6
  obtain ⟨hfit7, rfl⟩ := scanData_eq_some_iff.mp h7
  refine ⟨date, hour, rows, hdate, hhour, fun c => ?_, hrows, (Option.some.inj h).symm⟩
  fin_cases c <;> assumption

/-- A record that is read fits. -/
theorem fits_of_rowsOfTokens {r : TokenRow} {rest : List Bytes} {data : BitVec 32}
    {ls : List LcsMergeCounting} (h : rowsOfTokens (r.tokens ++ rest) data = some ls) : r.Fits := by
  obtain ⟨date, hour, _, hdate, hhour, hcounters, -, -⟩ := rowsOfTokens_row h
  exact ⟨⟨strcatEmpty_some hdate, strcatEmpty_some hhour⟩, hcounters⟩

/-- Records are read if and only if they fit. -/
theorem rowsOfTokens_readings {rows : List TokenRow} (hnul : ∀ r ∈ rows, r.NoNul)
    (hfits : ∀ r ∈ rows, r.Fits) (data : BitVec 32) :
    ∃ ls, Readings carry data rows ls ∧
      rowsOfTokens (rows.flatMap TokenRow.tokens) data = some ls := by
  induction rows generalizing data with
  | nil => exact ⟨[], .nil, rfl⟩
  | cons r rows ih =>
    rw [List.forall_mem_cons] at hnul hfits
    obtain ⟨l, hl, hrun⟩ := rowsOfTokens_fits hfits.1 hnul.1 data (rows.flatMap TokenRow.tokens)
    obtain ⟨ls, hls, htail⟩ := ih hnul.2 hfits.2 ((List.ofFn r.counters).foldl carry data)
    refine ⟨l :: ls, .cons hl hls, ?_⟩
    rw [List.flatMap_cons, hrun, htail, Option.map_some]

theorem fits_of_rowsOfTokens_flatMap {rows : List TokenRow} (hnul : ∀ r ∈ rows, r.NoNul)
    {data : BitVec 32} {ls : List LcsMergeCounting}
    (h : rowsOfTokens (rows.flatMap TokenRow.tokens) data = some ls) : ∀ r ∈ rows, r.Fits := by
  induction rows generalizing data ls with
  | nil => simp
  | cons r rows ih =>
    rw [List.forall_mem_cons] at hnul
    rw [List.flatMap_cons] at h
    have hr := fits_of_rowsOfTokens h
    obtain ⟨l, -, hrun⟩ := rowsOfTokens_fits hr hnul.1 data (rows.flatMap TokenRow.tokens)
    rw [hrun] at h
    obtain ⟨ls', hls', -⟩ := Option.map_eq_some_iff.mp h
    exact List.forall_mem_cons.mpr ⟨hr, ih hnul.2 hls'⟩

theorem collectTokens_of_rowsOfTokens (tokens : List Bytes) (data : BitVec 32)
    {ls : List LcsMergeCounting} (h : rowsOfTokens tokens data = some ls) :
    collectTokens carry tokens data = .ok ls := by
  induction tokens, data using rowsOfTokens.induct generalizing ls with
  | case1 data => exact congrArg Except.ok (Option.some.inj h)
  | case2 p p₁ p₂ p₃ p₄ p₅ p₆ p₇ p₈ p₉ tokens data ih =>
    obtain ⟨date, hour, rows, hdate, hhour, -, hrows, rfl⟩ :=
      @rowsOfTokens_row ⟨p, p₁, ![p₂, p₃, p₄, p₅, p₆, p₇, p₈, p₉]⟩ tokens data ls h
    rw [collectTokens]
    refine bind_eq_ok_iff.mpr ⟨date, by rw [strcatField, hdate], ?_⟩
    refine bind_eq_ok_iff.mpr ⟨hour, by rw [strcatField, hhour], ?_⟩
    exact bind_eq_ok_iff.mpr ⟨rows, ih _ hrows, rfl⟩
  | case3 tokens data hnil hrow =>
    rw [rowsOfTokens.eq_3 tokens data hnil hrow] at h
    cases h

/-- Where each conversion is defined, a text is merged without a fault. -/
theorem mergeTokens_of_lcsHcollect005Sum {text : Bytes} {file : Option Bytes}
    (h : lcsHcollect005Sum text = some file) :
    ∃ rows, mergeTokens carry text = .ok (rows, file) := by
  simp only [lcsHcollect005Sum, Option.bind_eq_bind, Option.bind_eq_some_iff] at h
  obtain ⟨rows, hrows, h⟩ := h
  refine ⟨rows, ?_⟩
  rw [mergeTokens, collectTokens_of_rowsOfTokens _ _ hrows]
  split_ifs at h with hempty
  · simp only [bind, Except.bind, if_pos hempty]
    rw [Option.some.inj h]
  · obtain ⟨text', hmerge, heq⟩ := Option.bind_eq_some_iff.mp h
    simp only [bind, Except.bind, if_neg hempty, hmerge]
    rw [Option.some.inj heq]

/-! ### What a counter depends on -/

/-- The last of the tokens that is a number, or the 0 that `data` starts with. -/
def lastNumber (ts : List Bytes) : BitVec 32 :=
  BitVec.ofInt 32 ((ts.filterMap scanD).getLast?.getD 0)

/-- The tokens of a column in the records with a key. -/
def column (rows : List TokenRow) (k : Bytes × Bytes) (c : Fin 8) : List Bytes :=
  (rows.filter fun r => r.key = k).map fun r => r.counters c

/-- The sum of the numbers; a token that is none counts as 0. -/
def numbers (ts : List Bytes) : BitVec 32 :=
  (ts.map fun t => BitVec.ofInt 32 ((scanD t).getD 0)).sum

/-- The sum of what `data` holds where a token of the column is no number; `before` are
the counters of earlier records. -/
def imported (before : List Bytes) : List TokenRow → Bytes × Bytes → Fin 8 → BitVec 32
  | [], _, _ => 0
  | r :: rows, k, c =>
    (if r.key = k ∧ scanD (r.counters c) = none then
      lastNumber (before ++ (List.ofFn r.counters).take c) else 0) +
    imported (before ++ List.ofFn r.counters) rows k c

/-- The counter of a key in the file that is written. -/
def counterOf (text : Bytes) (k : Bytes × Bytes) (c : Fin 8) : Option (BitVec 32) := do
  let file ← lcsHcollect005Sum text
  let out ← rowsOfTokens (strtoks blank (file.getD [])) 0
  let l ← out.find? fun l => (l.date.bytes, l.hour.bytes) = k
  some (l.counts c)

theorem numbers_cons (t : Bytes) (ts : List Bytes) :
    numbers (t :: ts) = BitVec.ofInt 32 ((scanD t).getD 0) + numbers ts :=
  List.sum_cons

theorem column_cons_same {r : TokenRow} {k : Bytes × Bytes} (h : r.key = k) (rows : List TokenRow)
    (c : Fin 8) : column (r :: rows) k c = r.counters c :: column rows k c := by
  simp [column, h]

theorem column_cons_other {r : TokenRow} {k : Bytes × Bytes} (h : r.key ≠ k) (rows : List TokenRow)
    (c : Fin 8) : column (r :: rows) k c = column rows k c := by
  simp [column, h]

theorem mem_keys_of_column {rows : List TokenRow} {k : Bytes × Bytes} {c : Fin 8} :
    k ∈ rows.map TokenRow.key ↔ column rows k c ≠ [] := by
  rw [column, Ne, List.map_eq_nil_iff, List.filter_eq_nil_iff, List.mem_map]
  simp

/-- `data` is the last number. -/
theorem foldl_carry (before ts : List Bytes) :
    ts.foldl carry (lastNumber before) = lastNumber (before ++ ts) := by
  induction ts generalizing before with
  | nil => rw [List.foldl_nil, List.append_nil]
  | cons t ts ih =>
    have hstep : carry (lastNumber before) t = lastNumber (before ++ [t]) := by
      cases ht : scanD t with
      | none => simp [lastNumber, carry, ht]
      | some v => simp [lastNumber, carry, ht]
    rw [List.foldl_cons, hstep, ih, List.append_assoc, List.singleton_append]

/-- A counter is its number, or what is imported. -/
theorem Reading.counts_eq {data : BitVec 32} {r : TokenRow} {l : LcsMergeCounting}
    (h : Reading carry data r l) (c : Fin 8) :
    l.counts c = BitVec.ofInt 32 ((scanD (r.counters c)).getD 0) +
      if scanD (r.counters c) = none then ((List.ofFn r.counters).take c).foldl carry data
      else 0 := by
  have htake : (List.ofFn r.counters).take (c + 1) =
      (List.ofFn r.counters).take c ++ [r.counters c] := by
    rw [List.take_add_one, List.getElem?_ofFn, dif_pos c.isLt, Option.toList_some]
  rw [h.counts, htake, List.foldl_append, List.foldl_cons, List.foldl_nil, carry]
  cases hscan : scanD (r.counters c) with
  | none => simp
  | some v => simp

/-- The counters of a key add up to its numbers and what is imported. -/
theorem Readings.total {data : BitVec 32} {rows : List TokenRow} {ls : List LcsMergeCounting}
    (h : Readings carry data rows ls) (before : List Bytes) (hdata : data = lastNumber before)
    (x : LcsMergeCounting) (c : Fin 8) :
    totalOf (ls.map pair) x.key c =
      numbers (column rows (x.date.bytes, x.hour.bytes) c) +
        imported before rows (x.date.bytes, x.hour.bytes) c := by
  induction h generalizing before with
  | nil => rfl
  | @cons data r l rows ls head _ ih =>
    subst hdata
    rw [List.map_cons, totalOf_cons, Pi.add_apply, ih _ (foldl_carry before _), imported]
    by_cases hkey : r.key = (x.date.bytes, x.hour.bytes)
    · have hsame : l.pair.1 = x.key := by
        rw [← head.key, Prod.mk.injEq] at hkey
        exact key_eq_iff.mpr ⟨CStr.ext hkey.1, CStr.ext hkey.2⟩
      have hl : l.pair.2 c = l.counts c := rfl
      simp only [if_pos hsame, hl, head.counts_eq, foldl_carry, column_cons_same hkey, numbers_cons,
        hkey, true_and]
      ac_rfl
    · have hother : l.pair.1 ≠ x.key := by
        intro hsame
        obtain ⟨hdate, hhour⟩ := key_eq_iff.mp hsame
        rw [← head.key, hdate, hhour] at hkey
        exact hkey rfl
      rw [if_neg hother, if_neg fun h => hkey h.1, column_cons_other hkey]
      simp only [Pi.zero_apply, zero_add]

section Text

variable {text : Bytes} {rows : List TokenRow}

theorem keys_isToken (htext : strtoks blank text = rows.flatMap TokenRow.tokens) :
    ∀ r ∈ rows, IsToken blank r.date ∧ IsToken blank r.hour := by
  intro r hr
  have htoken : ∀ t ∈ r.tokens, IsToken blank t := fun t ht =>
    strtoks_isToken (htext ▸ List.mem_flatMap.mpr ⟨r, hr, ht⟩)
  exact ⟨htoken _ (by simp [TokenRow.tokens]), htoken _ (by simp [TokenRow.tokens])⟩

theorem noNul_of_strtoks (htext : strtoks blank text = rows.flatMap TokenRow.tokens) :
    ∀ r ∈ rows, r.NoNul := fun r hr =>
  ⟨fun h0 => ((keys_isToken htext r hr).1.2 0 h0).2 rfl,
    fun h0 => ((keys_isToken htext r hr).2.2 0 h0).2 rfl⟩

/-- The counter of a key is the sum of its numbers and what is imported. -/
theorem counterOf_fits (htext : strtoks blank text = rows.flatMap TokenRow.tokens)
    (hint : rows.length < 2147483647) (hfits : ∀ r ∈ rows, r.Fits) {k : Bytes × Bytes}
    (hk : k ∈ rows.map TokenRow.key) (c : Fin 8) :
    counterOf text k c = some (numbers (column rows k c) + imported [] rows k c) := by
  obtain ⟨ls, hls, hrun⟩ := rowsOfTokens_readings (noNul_of_strtoks htext) hfits 0
  have hread : rowsOfTokens (strtoks blank text) 0 = some ls := htext ▸ hrun
  obtain ⟨out, hgroup, hout⟩ := lcsHcollect005Sum_rows hread (hls.length_eq ▸ hint)
  have hclean : ∀ l ∈ ls, Clean l := by
    intro l hl
    have hkey : (l.date.bytes, l.hour.bytes) ∈ rows.map TokenRow.key :=
      hls.keys ▸ List.mem_map_of_mem hl
    obtain ⟨r, hr, heq⟩ := List.mem_map.mp hkey
    obtain ⟨hdate, hhour⟩ := Prod.mk.inj heq
    rw [Clean, ← hdate, ← hhour]
    exact keys_isToken htext r hr
  have hagain : rowsOfTokens (strtoks blank ((fileOf out).getD [])) 0 = some out := by
    rw [fileOf_getD]
    exact (RowText.merged_clean hclean hgroup).rowsOfTokens_eq
  -- the row of the key
  obtain ⟨x, hx, hxk⟩ : ∃ x ∈ out, (x.date.bytes, x.hour.bytes) = k := by
    rw [← hls.keys] at hk
    obtain ⟨l, hl, rfl⟩ := List.mem_map.mp hk
    obtain ⟨a, ha, hal⟩ := (hgroup.keys l.key).mpr ⟨l.pair, List.mem_map_of_mem hl, rfl⟩
    obtain ⟨x, hx, rfl⟩ := List.mem_map.mp ha
    obtain ⟨hdate, hhour⟩ := key_eq_iff.mp (show x.key = l.key from hal)
    exact ⟨x, hx, by rw [hdate, hhour]⟩
  obtain ⟨y, hy⟩ : ∃ y, out.find? (fun l => (l.date.bytes, l.hour.bytes) = k) = some y := by
    rw [← Option.isSome_iff_exists, List.find?_isSome]
    exact ⟨x, hx, decide_eq_true hxk⟩
  have hyk : (y.date.bytes, y.hour.bytes) = k := by simpa using List.find?_some hy
  have htotal : y.counts c = totalOf (ls.map pair) y.key c :=
    congrFun (hgroup.total y.pair (List.mem_map_of_mem (List.mem_of_find?_eq_some hy))) c
  simp only [counterOf, hout, hagain, hy, bind, Option.bind_some, htotal,
    hls.total [] rfl, hyk]

theorem counterOf_eq_none (htext : strtoks blank text = rows.flatMap TokenRow.tokens)
    (hfits : ¬ ∀ r ∈ rows, r.Fits) (k : Bytes × Bytes) (c : Fin 8) : counterOf text k c = none := by
  have hread : rowsOfTokens (strtoks blank text) 0 = none := by
    rw [htext, Option.eq_none_iff_forall_ne_some]
    intro ls hls
    exact hfits (fits_of_rowsOfTokens_flatMap (noNul_of_strtoks htext) hls)
  simp only [counterOf, lcsHcollect005Sum, hread, bind, Option.bind_none]

/-- A counter is the sum of the numbers of its column if and only if all fits and nothing
is imported; of two texts with one column, the counters are the same if and only if what is
imported is the same. The numbers of records and the ones after them are `int`s. -/
theorem columns_independent_iff (text : Bytes) (rows : List TokenRow)
    (htext : strtoks blank text = rows.flatMap TokenRow.tokens) (hint : rows.length < 2147483647) :
    (∀ k ∈ rows.map TokenRow.key, ∀ c, counterOf text k c = some (numbers (column rows k c)) ↔
      (∀ r ∈ rows, r.Fits) ∧ imported [] rows k c = 0) ∧
    ∀ text' rows', strtoks blank text' = rows'.flatMap TokenRow.tokens →
      rows'.length < 2147483647 → (∀ r ∈ rows, r.Fits) → (∀ r ∈ rows', r.Fits) →
      ∀ k ∈ rows.map TokenRow.key, ∀ c, column rows k c = column rows' k c →
        (counterOf text k c = counterOf text' k c ↔
          imported [] rows k c = imported [] rows' k c) := by
  constructor
  · intro k hk c
    by_cases hfits : ∀ r ∈ rows, r.Fits
    · rw [counterOf_fits htext hint hfits hk, Option.some_inj, and_iff_right hfits]
      exact add_eq_left
    · rw [counterOf_eq_none htext hfits]
      simp only [hfits, false_and, reduceCtorEq]
  · intro text' rows' htext' hint' hfits hfits' k hk c hcolumn
    have hk' : k ∈ rows'.map TokenRow.key := by
      rw [mem_keys_of_column (c := c)] at hk ⊢
      exact hcolumn ▸ hk
    rw [counterOf_fits htext hint hfits hk, counterOf_fits htext' hint' hfits' hk', hcolumn,
      Option.some_inj]
    exact add_right_inj _

end Text

/-- A record whose first counter is a digit and whose second one is `(null)`. -/
def nullRow (digit : UInt8) : TokenRow where
  date := [50]
  hour := [49]
  counters := ![[digit], [40, 110, 117, 108, 108, 41], [48], [48], [48], [48], [48], [48]]

theorem nullRow_fits {digit : UInt8} (h : digit ∈ [55, 56]) : ∀ r ∈ [nullRow digit], r.Fits := by
  refine List.forall_mem_singleton.mpr ⟨⟨show 1 < 12 by omega, show 1 < 4 by omega⟩, fun c => ?_⟩
  simp only [List.mem_cons, List.not_mem_nil, or_false] at h
  rcases h with rfl | rfl
  · fin_cases c <;> decide
  · fin_cases c <;> decide

theorem columns_independent_iff_sample :
    (∀ k ∈ [nullRow 55].map TokenRow.key, ∀ c,
      counterOf (textOf [(nullRow 55).tokens]) k c = some (numbers (column [nullRow 55] k c)) ↔
        (∀ r ∈ [nullRow 55], r.Fits) ∧ imported [] [nullRow 55] k c = 0) ∧
    (counterOf (textOf [(nullRow 55).tokens]) (nullRow 55).key 1 =
        counterOf (textOf [(nullRow 56).tokens]) (nullRow 55).key 1 ↔
      imported [] [nullRow 55] (nullRow 55).key 1 =
        imported [] [nullRow 56] (nullRow 55).key 1) := by
  obtain ⟨hvalue, hpair⟩ := columns_independent_iff (textOf [(nullRow 55).tokens]) [nullRow 55]
    (by decide +kernel) (by simp)
  exact ⟨hvalue, hpair (textOf [(nullRow 56).tokens]) [nullRow 56] (by decide +kernel) (by simp)
    (nullRow_fits (by decide)) (nullRow_fits (by decide)) _ (by decide) 1 (by decide)⟩

/-- The counter of `(null)` is the one of the column before it. -/
theorem null_counter_imports :
    (∀ digit ∈ [55, 56], strtoks blank (textOf [(nullRow digit).tokens]) = (nullRow digit).tokens) ∧
    column [nullRow 55] (nullRow 55).key 1 = column [nullRow 56] (nullRow 55).key 1 ∧
    numbers (column [nullRow 55] (nullRow 55).key 1) = 0 ∧
    counterOf (textOf [(nullRow 55).tokens]) (nullRow 55).key 1 = some 7 ∧
    counterOf (textOf [(nullRow 56).tokens]) (nullRow 55).key 1 = some 8 := by
  decide +kernel

end MemoryLeak.Cluster
