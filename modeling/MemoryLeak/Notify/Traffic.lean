import MemoryLeak.Layout
import MemoryLeak.Notify.GenList

/-!
# Traffic sessions

The table of sessions in one process: `analyse_data` puts the records of a batch into it one
after another, `skylab_take_traffic_data` hands out what was counted since the last time and
drops the closed sessions. A record is 128 bytes, as the compiler lays it out.
-/
namespace MemoryLeak.Notify.Traffic
open MemoryLeak.CBytes MemoryLeak.Layout MemoryLeak.Runs

/-- `TRAFFIC_STREAM_INFO` -/
abbrev StreamInfo := Record 128

def isFirst : Field 128 := ⟨0, 1, by decide⟩
def isClosed : Field 128 := ⟨1, 1, by decide⟩
def startSec : Field 128 := ⟨8, 8, by decide⟩
def startNsec : Field 128 := ⟨16, 8, by decide⟩
def updatedSec : Field 128 := ⟨24, 8, by decide⟩
def updatedNsec : Field 128 := ⟨32, 8, by decide⟩
def streamId : Field 128 := ⟨40, 4, by decide⟩
def port : Field 128 := ⟨84, 4, by decide⟩
def upload : Field 128 := ⟨88, 8, by decide⟩
def download : Field 128 := ⟨96, 8, by decide⟩
def pid : Field 128 := ⟨104, 8, by decide⟩
def deltaUpload : Field 128 := ⟨112, 8, by decide⟩
def deltaDownload : Field 128 := ⟨120, 8, by decide⟩

/-- The two counters of a session. -/
inductive Direction where
  | up | down

def Direction.total : Direction → Field 128
  | up => upload
  | down => download

def Direction.delta : Direction → Field 128
  | up => deltaUpload
  | down => deltaDownload

/-- The bytes from `ip`, a `char[32]`, on. -/
def ipText (r : StreamInfo) : Bytes := r.bytes.drop 44

/-- The bytes from `proto`, a `char[7]`, on. -/
def protoText (r : StreamInfo) : Bytes := r.bytes.drop 76

/-- The number in a signed member of `bits` bits. -/
def signed (bits x : ℕ) : ℤ := Int.bmod x (2 ^ bits)

/-! ### A record and a session -/

/-- What tells one session from another. -/
def key (r : StreamInfo) : ℕ × ℕ × ℕ × ℕ :=
  (r.get startSec, r.get startNsec, r.get pid, r.get streamId)

/-- More than ten minutes since the last record. -/
def timedOut (now : ℤ) (t : StreamInfo) : Bool :=
  600 < Int.bmod (now - signed 64 (t.get updatedSec)) (2 ^ 64)

def markTimeout (now : ℤ) (t : StreamInfo) : StreamInfo :=
  if timedOut now t then t.set isClosed 1 else t

/-- A counter that has grown: the growth goes to its delta. -/
def countTraffic (total delta : Field 128) (t r : StreamInfo) : StreamInfo :=
  if t.get total < r.get total then
    (t.set delta (t.get delta + (r.get total - t.get total))).set total (r.get total)
  else t

/-- The first update of a session sets the deltas to the counters of the record. -/
def firstUpdate (t r : StreamInfo) : StreamInfo :=
  if t.get isFirst ≠ 0 then
    ((t.set isFirst 0).set deltaDownload (r.get download)).set deltaUpload (r.get upload)
  else t

/-- The strings of a record; the copy of `ip` is given 64 bytes, from the 32 of `ip` on. -/
def copyTexts (t r : StreamInfo) : StreamInfo :=
  let t := if byteAt (protoText r) 0 ≠ 0 then t.snprintf 76 4 (protoText r) (by decide) else t
  if byteAt (ipText r) 0 ≠ 0 then t.snprintf 44 63 (ipText r) (by decide) else t

/-- The time and the port of a record. -/
def stampSession (t r : StreamInfo) : StreamInfo :=
  let t := (t.set updatedSec (r.get updatedSec)).set updatedNsec (r.get updatedNsec)
  if 0 < signed 32 (r.get port) then t.set port (r.get port) else t

/-- The stored session `t` after its record `r`. -/
def updateSession (t r : StreamInfo) : StreamInfo :=
  let t := stampSession t r
  let t := countTraffic upload deltaUpload t r
  let t := countTraffic download deltaDownload t r
  let t := (firstUpdate t r).set isClosed (r.get isClosed)
  copyTexts t r

/-! ### The two calls -/

/-- The scan for the session of a record, and whether it was found. -/
def scanSessions (now : ℤ) (r : StreamInfo) : List StreamInfo → List StreamInfo × Bool
  | [] => ([], false)
  | t :: rest =>
    if key t = key r then (updateSession (markTimeout now t) r :: rest, true)
    else (markTimeout now t :: (scanSessions now r rest).1, (scanSessions now r rest).2)

/-- `add_item_traffic`, memory being there. -/
def addItemTraffic (sessions : List StreamInfo) (item : StreamInfo) : List StreamInfo :=
  sessions ++ [item]

/-- The records as they stand in the list. -/
def sessionBytes (sessions : List StreamInfo) : Bytes := sessions.flatMap Record.bytes

/-- A list that holds the records of the sessions holds the new one behind them after
`add_item_traffic`, here with the steps of `GEN_LIST`. -/
theorem addItemTraffic_list (junk : ℕ → UInt8) {p : Option GenList} {sessions : List StreamInfo}
    (h : unreadOf p = sessionBytes sessions) {arg : BufArg} {item : StreamInfo}
    (harg : arg.bytes = item.bytes) (sig : Option ℤ) :
    ∃ t sig', Notify.addItemTraffic junk p arg sig = (some t, sig', 0) ∧
      t.unread = sessionBytes (addItemTraffic sessions item) := by
  have hne : arg.bytes ≠ [] := by
    rw [harg, ← List.length_pos_iff, item.length_eq]
    omega
  obtain ⟨t, hadd, hunread⟩ := addItemTraffic_stores junk p sig hne
  refine ⟨t, _, hadd, ?_⟩
  rw [hunread, h, harg, addItemTraffic, sessionBytes, sessionBytes, List.flatMap_append,
    List.flatMap_singleton]

/-- One record of a batch; the number of sessions is an `int`. -/
def analyseRecord (now : ℤ) (sessions : List StreamInfo) (r : StreamInfo) : List StreamInfo :=
  let mm := (toInt sessions.length).toNat
  let scanned := scanSessions now r (sessions.take mm)
  if scanned.2 then scanned.1 ++ sessions.drop mm
  else addItemTraffic (scanned.1 ++ sessions.drop mm) r

/-- `analyse_data` on the records read from the shared memory. -/
def analyseData (now : ℤ) (sessions records : List StreamInfo) : List StreamInfo :=
  records.foldl (analyseRecord now) sessions

/-- `compare_traffic_info`; the ports are compared as signed numbers. -/
def compareTrafficInfo (a b : StreamInfo) : ℤ :=
  if signed 32 (a.get port) < signed 32 (b.get port) then 1
  else if signed 32 (b.get port) < signed 32 (a.get port) then -1
  else if strncmp 4 (protoText a) (protoText b) ≠ 0 then
    if 0 < strncmp 4 (protoText a) (protoText b) then 1 else -1
  else if strncmp 24 (ipText a) (ipText b) ≠ 0 then
    if 0 < strncmp 24 (ipText a) (ipText b) then 1 else -1
  else 0

/-- The deltas of `info` go to the first item of the same port, protocol and address. -/
def mergeItem (items : List StreamInfo) (info : StreamInfo) : List StreamInfo :=
  match items with
  | [] => [info]
  | t :: rest =>
    if compareTrafficInfo info t = 0 then
      (t.set deltaUpload (t.get deltaUpload + info.get deltaUpload)).set deltaDownload
        (t.get deltaDownload + info.get deltaDownload) :: rest
    else t :: mergeItem rest info

/-- What a take makes of the table: what it copied at first, the data it returns and the
sessions it leaves. -/
structure Taken where
  copied : List StreamInfo
  data : List StreamInfo
  sessions : List StreamInfo

/-- A session that stays, its deltas cleared. -/
def resetDeltas (t : StreamInfo) : StreamInfo := (t.set deltaUpload 0).set deltaDownload 0

/-- `skylab_take_traffic_data`; the number of bytes is an `int`, and where that is negative
`malloc` returns null, to which the sessions are copied. -/
def skylabTakeTrafficData (sessions : List StreamInfo) : Option Taken :=
  let n := toInt (128 * sessions.length)
  if n = 0 then some ⟨[], [], sessions⟩
  else if n < 0 then none
  else
    let p := sessions.take (n.toNat / 128)
    some ⟨p, p.foldl mergeItem [], (p.filter fun t => t.get isClosed = 0).map resetDeltas⟩

/-! ### Runs -/

inductive TrafficEvent where
  /-- a record of a batch that is analysed at `now` -/
  | record (now : ℤ) (r : StreamInfo)
  | take

def step (sessions : List StreamInfo) : TrafficEvent → Option (List StreamInfo)
  | .record now r => some (analyseRecord now sessions r)
  | .take => (skylabTakeTrafficData sessions).map Taken.sessions

/-- A batch is its records one after another. -/
theorem run_batch (now : ℤ) (sessions records : List StreamInfo) :
    run step sessions (records.map (TrafficEvent.record now)) =
      some (analyseData now sessions records) := by
  induction records generalizing sessions with
  | nil => rfl
  | cons r records ih =>
    rw [List.map_cons, run_cons, step, Option.bind_some, ih, analyseData, analyseData,
      List.foldl_cons]

/-! ### One session and its record -/

/-- The members of a key. -/
def keyFields : List (Field 128) := [startSec, startNsec, pid, streamId]

theorem key_eq_of_gets {t t' : StreamInfo} (h : ∀ f ∈ keyFields, t'.get f = t.get f) :
    key t' = key t := by
  simp only [keyFields, List.forall_mem_cons, List.not_mem_nil, false_imp_iff, implies_true,
    and_true] at h
  unfold key
  rw [h.1, h.2.1, h.2.2.1, h.2.2.2]

theorem markTimeout_get (now : ℤ) (t : StreamInfo) {f : Field 128} (hf : isClosed.Disjoint f) :
    (markTimeout now t).get f = t.get f := by
  unfold markTimeout
  split_ifs
  · exact t.get_set_of_disjoint hf 1
  · rfl

theorem isClosed_disjoint_key : ∀ f ∈ keyFields, isClosed.Disjoint f := by decide

theorem markTimeout_key (now : ℤ) (t : StreamInfo) : key (markTimeout now t) = key t :=
  key_eq_of_gets fun f hf => markTimeout_get now t (isClosed_disjoint_key f hf)

/-- The string at `ip` ends before the counters. -/
def IpEnds (r : StreamInfo) : Prop := (cstr 63 (ipText r)).length < 44

instance (r : StreamInfo) : Decidable (IpEnds r) := inferInstanceAs (Decidable (_ < _))

theorem countTraffic_get {total delta f : Field 128} (htotal : total.Disjoint f)
    (hdelta : delta.Disjoint f) (t r : StreamInfo) :
    (countTraffic total delta t r).get f = t.get f := by
  unfold countTraffic
  split_ifs
  · rw [Record.get_set_of_disjoint _ htotal, Record.get_set_of_disjoint _ hdelta]
  · rfl

/-- The counter is the larger one. -/
theorem countTraffic_total (total delta : Field 128) (t r : StreamInfo) :
    (countTraffic total delta t r).get total = max (t.get total) (r.get total) := by
  unfold countTraffic
  split_ifs with h
  · rw [Record.get_set_get _ _ rfl]
    omega
  · omega

theorem countTraffic_delta {total delta : Field 128} (hd : total.Disjoint delta)
    (t r : StreamInfo) :
    (countTraffic total delta t r).get delta =
      (t.get delta + (r.get total - t.get total)) % 256 ^ delta.len := by
  unfold countTraffic
  split_ifs with h
  · rw [Record.get_set_of_disjoint _ hd, Record.get_set_self]
  · rw [Nat.sub_eq_zero_of_le (by omega), Nat.add_zero, Nat.mod_eq_of_lt (t.get_lt delta)]

theorem firstUpdate_get {f : Field 128} (hfirst : isFirst.Disjoint f)
    (hup : deltaUpload.Disjoint f) (hdown : deltaDownload.Disjoint f) (t r : StreamInfo) :
    (firstUpdate t r).get f = t.get f := by
  unfold firstUpdate
  split_ifs
  · rw [Record.get_set_of_disjoint _ hup, Record.get_set_of_disjoint _ hdown,
      Record.get_set_of_disjoint _ hfirst]
  · rfl

/-- The strings reach no member in front of them or from the counters on. -/
theorem copyTexts_get {f : Field 128} (hf : 88 ≤ f.off ∨ f.off + f.len ≤ 44) (t : StreamInfo)
    {r : StreamInfo} (hr : IpEnds r) : (copyTexts t r).get f = t.get f := by
  have hproto := cstr_length_le 4 (protoText r)
  unfold IpEnds at hr
  unfold copyTexts
  split_ifs
  · rw [Record.get_snprintf _ _ (by omega), Record.get_snprintf _ _ (by omega)]
  · rw [Record.get_snprintf _ _ (by omega)]
  · rw [Record.get_snprintf _ _ (by omega)]
  · rfl

theorem stampSession_get {f : Field 128} (hsec : updatedSec.Disjoint f)
    (hnsec : updatedNsec.Disjoint f) (hport : port.Disjoint f) (t r : StreamInfo) :
    (stampSession t r).get f = t.get f := by
  unfold stampSession
  dsimp only
  split_ifs
  · rw [Record.get_set_of_disjoint _ hport, Record.get_set_of_disjoint _ hnsec,
      Record.get_set_of_disjoint _ hsec]
  · rw [Record.get_set_of_disjoint _ hnsec, Record.get_set_of_disjoint _ hsec]

/-- The members that an update sets, its strings apart. -/
def updatedFields : List (Field 128) :=
  [updatedSec, updatedNsec, port, upload, deltaUpload, download, deltaDownload, isFirst, isClosed]

theorem updateSession_get {f : Field 128} (hf : 88 ≤ f.off ∨ f.off + f.len ≤ 44)
    (hall : ∀ g ∈ updatedFields, g.Disjoint f) (t : StreamInfo) {r : StreamInfo} (hr : IpEnds r) :
    (updateSession t r).get f = t.get f := by
  simp only [updatedFields, List.forall_mem_cons, List.not_mem_nil, false_imp_iff, implies_true,
    and_true] at hall
  obtain ⟨hsec, hnsec, hport, hup, hdup, hdown, hddown, hfirst, hclosed⟩ := hall
  unfold updateSession
  dsimp only
  rw [copyTexts_get hf _ hr, Record.get_set_of_disjoint _ hclosed,
    firstUpdate_get hfirst hdup hddown, countTraffic_get hdown hddown, countTraffic_get hup hdup,
    stampSession_get hsec hnsec hport]

theorem updateSession_key (t : StreamInfo) {r : StreamInfo} (hr : IpEnds r) :
    key (updateSession t r) = key t := by
  have hplace : ∀ f ∈ keyFields, 88 ≤ f.off ∨ f.off + f.len ≤ 44 := by decide
  have hall : ∀ f ∈ keyFields, ∀ g ∈ updatedFields, g.Disjoint f := by decide
  exact key_eq_of_gets fun f hf => updateSession_get (hplace f hf) (hall f hf) t hr

/-- A counter of the session is the largest so far. -/
theorem updateSession_total (d : Direction) (t : StreamInfo) {r : StreamInfo} (hr : IpEnds r) :
    (updateSession t r).get d.total = max (t.get d.total) (r.get d.total) := by
  unfold updateSession
  dsimp only
  cases d with
  | up =>
    rw [Direction.total, copyTexts_get (by decide) _ hr, Record.get_set_of_disjoint _ (by decide),
      firstUpdate_get (by decide) (by decide) (by decide),
      countTraffic_get (by decide) (by decide), countTraffic_total,
      stampSession_get (by decide) (by decide) (by decide)]
  | down =>
    rw [Direction.total, copyTexts_get (by decide) _ hr, Record.get_set_of_disjoint _ (by decide),
      firstUpdate_get (by decide) (by decide) (by decide), countTraffic_total,
      countTraffic_get (by decide) (by decide),
      stampSession_get (by decide) (by decide) (by decide)]

/-! ### One record and the table -/

section Record

variable {now : ℤ} {r : StreamInfo}

theorem scanSessions_new {s : List StreamInfo} (h : ∀ t ∈ s, key t ≠ key r) :
    scanSessions now r s = (s.map (markTimeout now), false) := by
  induction s with
  | nil => rfl
  | cons t s ih =>
    rw [scanSessions, if_neg (h t List.mem_cons_self), ih fun x hx =>
      h x (List.mem_cons_of_mem t hx), List.map_cons]

theorem scanSessions_known {pre post : List StreamInfo} {t : StreamInfo}
    (hpre : ∀ x ∈ pre, key x ≠ key r) (ht : key t = key r) :
    scanSessions now r (pre ++ t :: post) =
      (pre.map (markTimeout now) ++ updateSession (markTimeout now t) r :: post, true) := by
  induction pre with
  | nil =>
    rw [List.nil_append, scanSessions, if_pos ht]
    rfl
  | cons x pre ih =>
    rw [List.cons_append, scanSessions, if_neg (hpre x List.mem_cons_self),
      ih fun y hy => hpre y (List.mem_cons_of_mem x hy), List.map_cons, List.cons_append]

theorem toInt_length {s : List StreamInfo} (h : s.length < 2 ^ 31) :
    (toInt s.length).toNat = s.length := by
  rw [toInt_of_lt h, Int.toNat_natCast]

theorem analyseRecord_new {s : List StreamInfo} (hlen : s.length < 2 ^ 31)
    (h : ∀ t ∈ s, key t ≠ key r) :
    analyseRecord now s r = s.map (markTimeout now) ++ [r] := by
  unfold analyseRecord addItemTraffic
  simp only [toInt_length hlen, List.take_length, List.drop_length, scanSessions_new h,
    Bool.false_eq_true, if_false, List.append_nil]

theorem analyseRecord_known {pre post : List StreamInfo} {t : StreamInfo}
    (hlen : (pre ++ t :: post).length < 2 ^ 31) (hpre : ∀ x ∈ pre, key x ≠ key r)
    (ht : key t = key r) :
    analyseRecord now (pre ++ t :: post) r =
      pre.map (markTimeout now) ++ updateSession (markTimeout now t) r :: post := by
  unfold analyseRecord
  simp only [toInt_length hlen, List.take_length, List.drop_length, scanSessions_known hpre ht,
    if_true, List.append_nil]

end Record

/-- The stored sessions are distinct. -/
def Distinct (s : List StreamInfo) : Prop := (s.map key).Nodup

/-- Where the session of a record stands. -/
theorem Distinct.split {s : List StreamInfo} (hs : Distinct s) {t : StreamInfo} (ht : t ∈ s) :
    ∃ pre post, s = pre ++ t :: post ∧ (∀ x ∈ pre, key x ≠ key t) ∧ ∀ x ∈ post, key x ≠ key t := by
  obtain ⟨pre, post, rfl⟩ := List.append_of_mem ht
  unfold Distinct at hs
  rw [List.map_append, List.map_cons, List.nodup_append, List.nodup_cons] at hs
  obtain ⟨_, ⟨hpost, _⟩, hpre⟩ := hs
  refine ⟨pre, post, rfl, ?_, ?_⟩
  · exact fun x hx h => hpre _ (List.mem_map_of_mem hx) _ List.mem_cons_self h
  · exact fun x hx h => hpost (h ▸ List.mem_map_of_mem hx)

/-- What a record does to the table: its session counts it, or it becomes a session; of the
others some are marked closed. -/
structure RecordEffect (now : ℤ) (r : StreamInfo) (s s' : List StreamInfo) : Prop where
  known : (∃ t ∈ s, key t = key r) → s'.length = s.length
  unknown : (∀ t ∈ s, key t ≠ key r) → s'.length = s.length + 1 ∧ s'[s.length]? = some r
  updated : ∀ (i : ℕ) t, s[i]? = some t → key t = key r → ∃ t', s'[i]? = some t' ∧
    key t' = key t ∧ ∀ d : Direction, t'.get d.total = max (t.get d.total) (r.get d.total)
  others : ∀ (i : ℕ) t, s[i]? = some t → key t ≠ key r → ∃ t', s'[i]? = some t' ∧
    (t' = t ∨ timedOut now t = true ∧ t' = t.set isClosed 1)

/-- What a take leaves of a session: the counters are those that were stored. -/
def TakeEffect (s s' : List StreamInfo) : Prop :=
  ∀ t' ∈ s', ∃ t ∈ s, key t' = key t ∧ ∀ d : Direction, t'.get d.total = t.get d.total

/-- Sessions that fit the `int` variables, and a record of a stored session whose address
string ends before the counters. -/
def Meets (s : List StreamInfo) : TrafficEvent → Prop
  | .record _ r => s.length < 2 ^ 31 ∧ ((∃ t ∈ s, key t = key r) → IpEnds r)
  | .take => s.length < 2 ^ 24

instance (s : List StreamInfo) : (e : TrafficEvent) → Decidable (Meets s e)
  | .record _ r => inferInstanceAs (Decidable (_ ∧ ((∃ t ∈ s, key t = key r) → IpEnds r)))
  | .take => inferInstanceAs (Decidable (_ < _))

theorem markTimeout_cases (now : ℤ) (t : StreamInfo) :
    markTimeout now t = t ∨ timedOut now t = true ∧ markTimeout now t = t.set isClosed 1 := by
  unfold markTimeout
  by_cases h : timedOut now t = true
  · exact Or.inr ⟨h, if_pos h⟩
  · exact Or.inl (if_neg h)

theorem map_markTimeout_key (now : ℤ) (s : List StreamInfo) :
    (s.map (markTimeout now)).map key = s.map key := by
  rw [List.map_map]
  exact List.map_congr_left fun t _ => markTimeout_key now t

/-- A list with one item replaced and those in front of it changed. -/
theorem getElem?_replaced {α : Type} {pre pre' post : List α} {t u x : α} {i : ℕ}
    (hlen : pre'.length = pre.length) (h : (pre ++ t :: post)[i]? = some x) :
    pre[i]? = some x ∧ (pre' ++ u :: post)[i]? = pre'[i]? ∨
      x = t ∧ (pre' ++ u :: post)[i]? = some u ∨
      x ∈ post ∧ (pre' ++ u :: post)[i]? = some x := by
  rcases Nat.lt_or_ge i pre.length with hi | hi
  · rw [List.getElem?_append_left hi] at h
    exact Or.inl ⟨h, List.getElem?_append_left (hlen.symm ▸ hi)⟩
  · rw [List.getElem?_append_right hi] at h
    rw [List.getElem?_append_right (hlen.symm ▸ hi), hlen]
    cases hd : i - pre.length with
    | zero =>
      rw [hd, List.getElem?_cons_zero, Option.some_inj] at h
      exact Or.inr (Or.inl ⟨h.symm, rfl⟩)
    | succ d =>
      rw [hd, List.getElem?_cons_succ] at h
      exact Or.inr (Or.inr ⟨List.mem_of_getElem? h, h⟩)

theorem updated_counters {now : ℤ} {t r : StreamInfo} (hr : IpEnds r) :
    key (updateSession (markTimeout now t) r) = key t ∧ ∀ d : Direction,
      (updateSession (markTimeout now t) r).get d.total = max (t.get d.total) (r.get d.total) := by
  rw [updateSession_key _ hr, markTimeout_key]
  refine ⟨rfl, fun d => ?_⟩
  rw [updateSession_total d _ hr, markTimeout_get now t (by cases d <;> decide)]

/-- A record of a stored session. -/
theorem record_known {now : ℤ} {r t : StreamInfo} {pre post : List StreamInfo}
    (hlen : (pre ++ t :: post).length < 2 ^ 31) (hr : IpEnds r) (hkey : key t = key r)
    (hpre : ∀ x ∈ pre, key x ≠ key r) (hpost : ∀ x ∈ post, key x ≠ key r) :
    RecordEffect now r (pre ++ t :: post) (analyseRecord now (pre ++ t :: post) r) := by
  obtain ⟨hsame, htotal⟩ := @updated_counters now t r hr
  have hmap : (pre.map (markTimeout now)).length = pre.length := List.length_map _
  rw [analyseRecord_known hlen hpre hkey]
  refine ⟨?_, ?_, ?_, ?_⟩
  · intro _
    simp only [List.length_append, List.length_map, List.length_cons]
  · intro hnone
    exact absurd hkey (hnone t (List.mem_append_right pre List.mem_cons_self))
  · intro i x hi hx
    rcases getElem?_replaced hmap hi (u := updateSession (markTimeout now t) r) with
      ⟨hin, _⟩ | ⟨rfl, hu⟩ | ⟨hin, _⟩
    · exact absurd hx (hpre x (List.mem_of_getElem? hin))
    · exact ⟨_, hu, hsame, htotal⟩
    · exact absurd hx (hpost x hin)
  · intro i x hi hx
    rcases getElem?_replaced hmap hi (u := updateSession (markTimeout now t) r) with
      ⟨hin, hfront⟩ | ⟨rfl, _⟩ | ⟨_, hbehind⟩
    · rw [List.getElem?_map, hin, Option.map_some] at hfront
      exact ⟨_, hfront, markTimeout_cases now x⟩
    · exact absurd hkey hx
    · exact ⟨x, hbehind, Or.inl rfl⟩

/-- A record of a session that is not stored. -/
theorem record_new {now : ℤ} {r : StreamInfo} {s : List StreamInfo} (hlen : s.length < 2 ^ 31)
    (hnew : ∀ t ∈ s, key t ≠ key r) : RecordEffect now r s (analyseRecord now s r) := by
  have hmap : (s.map (markTimeout now)).length = s.length := List.length_map _
  rw [analyseRecord_new hlen hnew]
  refine ⟨?_, ?_, ?_, ?_⟩
  · rintro ⟨t, ht, hkey⟩
    exact absurd hkey (hnew t ht)
  · intro _
    rw [List.length_append, List.length_singleton, hmap, List.getElem?_append_right (by omega),
      hmap, Nat.sub_self, List.getElem?_cons_zero]
    exact ⟨rfl, rfl⟩
  · intro i t hi hkey
    exact absurd hkey (hnew t (List.mem_of_getElem? hi))
  · intro i t hi _
    obtain ⟨hlt, _⟩ := List.getElem?_eq_some_iff.mp hi
    refine ⟨markTimeout now t, ?_, markTimeout_cases now t⟩
    rw [List.getElem?_append_left (by omega), List.getElem?_map, hi, Option.map_some]

/-- A record keeps the sessions distinct. -/
theorem record_step {now : ℤ} {r : StreamInfo} {s : List StreamInfo} (hs : Distinct s)
    (h : Meets s (.record now r)) :
    Distinct (analyseRecord now s r) ∧ RecordEffect now r s (analyseRecord now s r) := by
  obtain ⟨hlen, hends⟩ := h
  by_cases hknown : ∃ t ∈ s, key t = key r
  · have hr := hends hknown
    obtain ⟨t, ht, hkey⟩ := hknown
    obtain ⟨pre, post, rfl, hpre, hpost⟩ := hs.split ht
    rw [hkey] at hpre hpost
    refine ⟨?_, record_known hlen hr hkey hpre hpost⟩
    unfold Distinct at hs ⊢
    rw [analyseRecord_known hlen hpre hkey, List.map_append, List.map_cons, map_markTimeout_key,
      (updated_counters hr).1]
    rwa [List.map_append, List.map_cons] at hs
  · have hnew : ∀ t ∈ s, key t ≠ key r := fun t ht hkey => hknown ⟨t, ht, hkey⟩
    refine ⟨?_, record_new hlen hnew⟩
    unfold Distinct at hs ⊢
    rw [analyseRecord_new hlen hnew, List.map_append, map_markTimeout_key, List.nodup_append]
    refine ⟨hs, List.nodup_cons.mpr ⟨List.not_mem_nil, List.nodup_nil⟩, ?_⟩
    intro k hk k' hk'
    rw [List.mem_singleton.mp hk']
    rintro rfl
    obtain ⟨t, ht, hkey⟩ := List.mem_map.mp hk
    exact hnew t ht hkey

theorem resetDeltas_get {f : Field 128} (hup : deltaUpload.Disjoint f)
    (hdown : deltaDownload.Disjoint f) (t : StreamInfo) : (resetDeltas t).get f = t.get f := by
  unfold resetDeltas
  rw [Record.get_set_of_disjoint _ hdown, Record.get_set_of_disjoint _ hup]

theorem resetDeltas_key (t : StreamInfo) : key (resetDeltas t) = key t := by
  have hup : ∀ f ∈ keyFields, deltaUpload.Disjoint f := by decide
  have hdown : ∀ f ∈ keyFields, deltaDownload.Disjoint f := by decide
  exact key_eq_of_gets fun f hf => resetDeltas_get (hup f hf) (hdown f hf) t

/-- A take of a table that fits copies all of it. -/
theorem take_eq {s : List StreamInfo} (h : s.length < 2 ^ 24) :
    skylabTakeTrafficData s = some ⟨s, s.foldl mergeItem [],
      (s.filter fun t => t.get isClosed = 0).map resetDeltas⟩ := by
  have hn : toInt (128 * s.length) = ((128 * s.length : ℕ) : ℤ) := toInt_of_lt (by omega)
  have hcount : (toInt (128 * s.length)).toNat / 128 = s.length := by
    rw [hn, Int.toNat_natCast, Nat.mul_div_cancel_left _ (by omega)]
  unfold skylabTakeTrafficData
  cases s with
  | nil => rfl
  | cons t s =>
    dsimp only
    rw [hcount, if_neg (by rw [hn, List.length_cons]; omega),
      if_neg (by rw [hn]; omega), List.take_length]

/-- A take keeps the sessions distinct. -/
theorem take_step {s : List StreamInfo} (hs : Distinct s) (h : Meets s .take) :
    ∃ s', step s .take = some s' ∧ Distinct s' ∧ TakeEffect s s' := by
  refine ⟨_, by rw [step, take_eq h, Option.map_some], ?_, ?_⟩
  · have hkeys : ((s.filter fun t => t.get isClosed = 0).map resetDeltas).map key =
        (s.filter fun t => t.get isClosed = 0).map key := by
      rw [List.map_map]
      exact List.map_congr_left fun t _ => resetDeltas_key t
    unfold Distinct at hs ⊢
    dsimp only
    rw [hkeys]
    exact hs.sublist (List.Sublist.map key List.filter_sublist)
  · intro t' ht'
    obtain ⟨t, ht, rfl⟩ := List.mem_map.mp ht'
    exact ⟨t, (List.mem_filter.mp ht).1, resetDeltas_key t, fun d =>
      resetDeltas_get (by cases d <;> decide) (by cases d <;> decide) t⟩

/-- In every run whose steps all meet the condition the stored sessions are distinct, a record
changes its own session only or adds one, and the counters of what stays stored never
decrease. -/
theorem session_table {es : List TrafficEvent} (h : AllSteps step Meets [] es) :
    ∃ s, run step [] es = some s ∧ Distinct s ∧
      (∀ now r, Meets s (.record now r) → RecordEffect now r s (analyseRecord now s r)) ∧
      (Meets s .take → ∃ s', step s .take = some s' ∧ TakeEffect s s') := by
  have hstep : ∀ s e, Distinct s → Meets s e → ∃ s', step s e = some s' ∧ Distinct s' := by
    intro s e hs hmeets
    cases e with
    | record now r => exact ⟨_, rfl, (record_step hs hmeets).1⟩
    | take =>
      obtain ⟨s', hs', hdistinct, _⟩ := take_step hs hmeets
      exact ⟨s', hs', hdistinct⟩
  obtain ⟨s, hrun, hs⟩ := h.run hstep (show Distinct [] from List.nodup_nil)
  refine ⟨s, hrun, hs, ?_, ?_⟩
  · exact fun now r hmeets => (record_step hs hmeets).2
  · intro hmeets
    obtain ⟨s', hs', _, heffect⟩ := take_step hs hmeets
    exact ⟨s', hs', heffect⟩

theorem zeros_length : (zeros 128).length = 128 := List.length_replicate

def zeroRecord : StreamInfo := ⟨zeros 128, zeros_length⟩

/-- Two sessions; the first has a later record, and is closed by time before the second take. -/
def twoSessions : List TrafficEvent :=
  [.record 0 (zeroRecord.set upload 3), .record 0 ((zeroRecord.set pid 7).set upload 40),
    .record 0 (zeroRecord.set upload 9), .take, .record 601 (zeroRecord.set pid 8), .take]

theorem session_table_sample :
    AllSteps step Meets [] twoSessions ∧ ∃ s, run step [] twoSessions = some s ∧ Distinct s ∧
      s.map (fun t => (t.get pid, t.get upload)) = [(8, 0)] := by
  have hmeets : AllSteps step Meets [] twoSessions := by decide +kernel
  have hleft : (run step [] twoSessions).map (List.map fun t => (t.get pid, t.get upload)) =
      some [(8, 0)] := by decide +kernel
  obtain ⟨s, hrun, hs, _⟩ := session_table hmeets
  rw [hrun, Option.map_some, Option.some_inj] at hleft
  exact ⟨hmeets, s, hrun, hs, hleft⟩

/-- 258 bytes uploaded. -/
def longUpload : StreamInfo := zeroRecord.set upload 258

/-- A string at `ip` that is not ended before `upload`, which is 5. -/
def longIp : StreamInfo := (zeroRecord.write 44 (List.replicate 44 65) (by decide)).set upload 5

/-- The copy of the string cuts the counter of the session from 258 to 5. -/
theorem counter_overwritten :
    run step [] [.record 0 longUpload] = some [longUpload] ∧
      longUpload.get upload = 258 ∧
      (analyseRecord 0 [longUpload] longIp).map (fun t => (key t, t.get upload)) =
        [(key longUpload, 5)] ∧
      ¬ RecordEffect 0 longIp [longUpload] (analyseRecord 0 [longUpload] longIp) := by
  have hcut : (analyseRecord 0 [longUpload] longIp).map (fun t => (key t, t.get upload)) =
      [(key longUpload, 5)] := by decide +kernel
  refine ⟨by rfl, by decide +kernel, hcut, ?_⟩
  intro heffect
  obtain ⟨t', ht', _, htotal⟩ := heffect.updated 0 longUpload rfl (by decide +kernel)
  have hhead := congrArg (fun l => l[0]?) hcut
  rw [List.getElem?_map, ht', Option.map_some, List.getElem?_cons_zero, Option.some_inj] at hhead
  have hcount : t'.get upload = 5 := (Prod.ext_iff.mp hhead).2
  exact absurd (hcount.symm.trans (htotal .up)) (by decide +kernel)

end MemoryLeak.Notify.Traffic
