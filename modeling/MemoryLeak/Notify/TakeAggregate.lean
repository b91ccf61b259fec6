import MemoryLeak.MergeByKey
import MemoryLeak.Notify.TrafficLedger

/-!
# The report of a take

`skylab_take_traffic_data` reports the sessions by class: those of one port, protocol and
address go to one entry, whose deltas are their sums, and the sessions that are not closed stay
with both deltas cleared. The number of bytes of the table is put into an `int`, which holds
that of 2^24 − 1 sessions.
-/
namespace MemoryLeak.Notify.Traffic
open MemoryLeak.CBytes MemoryLeak.Layout MemoryLeak.MergeByKey

/-! ### Classes -/

/-- `real_equal` -/
def realEqual (a b : StreamInfo) : Bool := compareTrafficInfo a b = 0

/-- What `real_equal` compares: the port, 4 bytes of the protocol and 24 of the address. -/
def classKey (r : StreamInfo) : ℤ × Bytes × Bytes :=
  (signed 32 (r.get port), cstr 4 (protoText r), cstr 24 (ipText r))

theorem compareTrafficInfo_eq_zero_iff (a b : StreamInfo) :
    compareTrafficInfo a b = 0 ↔ classKey a = classKey b := by
  have hproto := strncmp_eq_zero_iff 4 (protoText a) (protoText b)
  have hip := strncmp_eq_zero_iff 24 (ipText a) (ipText b)
  unfold compareTrafficInfo classKey
  rw [Prod.mk.injEq, Prod.mk.injEq, ← hproto, ← hip]
  split_ifs
  · exact iff_of_false (by omega) (by omega)
  · exact iff_of_false id (by omega)
  · exact iff_of_false (by omega) (by omega)
  · exact iff_of_false id (by omega)
  · exact iff_of_false (by omega) (by omega)
  · exact iff_of_false id (by omega)
  · exact iff_of_true rfl (by omega)

theorem realEqual_iff (a b : StreamInfo) : realEqual a b = true ↔ classKey a = classKey b := by
  rw [realEqual, decide_eq_true_eq, compareTrafficInfo_eq_zero_iff]

theorem classKey_eq_of_take {a b : StreamInfo} (h : a.bytes.take 88 = b.bytes.take 88) :
    classKey a = classKey b := by
  have hport : a.get port = b.get port := by
    have hcut := congrArg (List.drop 84) h
    rw [List.drop_take, List.drop_take] at hcut
    exact congrArg leVal hcut
  have htext {off n : ℕ} (hn : off + n ≤ 88) :
      cstr n (a.bytes.drop off) = cstr n (b.bytes.drop off) := by
    have hcut := congrArg (fun l => cstr n (l.drop off)) h
    rwa [List.drop_take, List.drop_take, cstr_take (by omega), cstr_take (by omega)] at hcut
  unfold classKey
  rw [hport, protoText, protoText, htext (by omega), ipText, ipText, htext (by omega)]

/-- The deltas are the last two members. -/
theorem set_delta_take (t : StreamInfo) (d : Direction) (v : ℕ) :
    (t.set d.delta v).bytes.take 112 = t.bytes.take 112 := by
  have hoff : 112 ≤ d.delta.off ∧ d.delta.off ≤ 120 := by cases d <;> decide
  apply memcpy_take_of_le hoff.1
  rw [t.length_eq]
  omega

theorem take_le_of_take {a b : Bytes} {m n : ℕ} (hmn : m ≤ n) (h : a.take n = b.take n) :
    a.take m = b.take m := by
  have hcut := congrArg (List.take m) h
  rwa [List.take_take, List.take_take, Nat.min_eq_left hmn] at hcut

/-! ### The merge -/

/-- The deltas of `info` are added to those of `t`. -/
def addDeltas (t info : StreamInfo) : StreamInfo :=
  (t.set deltaUpload (t.get deltaUpload + info.get deltaUpload)).set deltaDownload
    (t.get deltaDownload + info.get deltaDownload)

theorem mergeItem_eq (items : List StreamInfo) (info : StreamInfo) :
    mergeItem items info = mergeInto classKey addDeltas items info := by
  induction items with
  | nil => rfl
  | cons t rest ih =>
    rw [mergeItem, mergeInto, ih]
    simp only [compareTrafficInfo_eq_zero_iff]
    rfl

theorem classKey_addDeltas (t info : StreamInfo) : classKey (addDeltas t info) = classKey t := by
  apply classKey_eq_of_take
  apply take_le_of_take (show 88 ≤ 112 by omega)
  exact (set_delta_take _ .down _).trans (set_delta_take t .up _)

theorem addDeltas_delta (d : Direction) (t info : StreamInfo) :
    (addDeltas t info).get d.delta ≡ t.get d.delta + info.get d.delta [MOD 2 ^ 64] := by
  unfold addDeltas
  cases d with
  | up =>
    rw [Direction.delta, Record.get_set_of_disjoint _ (by decide), Record.get_set_self]
    exact Nat.mod_modEq _ _
  | down =>
    rw [Direction.delta, Record.get_set_self]
    exact Nat.mod_modEq _ _

theorem foldl_mergeItem_eq (p : List StreamInfo) :
    p.foldl mergeItem [] = p.foldl (mergeInto classKey addDeltas) [] := by
  congr 1
  ext items info : 2
  exact mergeItem_eq items info

/-! ### What is asked of a take -/

/-- The sum of a delta over the sessions of the class of `e`. -/
def classSum (d : Direction) (e : StreamInfo) (s : List StreamInfo) : ℕ :=
  ((s.filter fun t => realEqual t e).map fun t => t.get d.delta).sum

theorem classSum_eq (d : Direction) (e : StreamInfo) (s : List StreamInfo) :
    classSum d e s = totalOf classKey (fun t => t.get d.delta) (classKey e) s := by
  have hfilter : s.filter (fun t => realEqual t e) =
      s.filter fun t => decide (classKey t = classKey e) := by
    apply List.filter_congr
    intro t _
    rw [Bool.eq_iff_iff, realEqual_iff, decide_eq_true_eq]
  rw [classSum, hfilter, totalOf]

/-- What stays of a session: its deltas, which are its last members, are 0, and the bytes in
front of them are as they were. -/
structure Cleared (t t' : StreamInfo) : Prop where
  deltas : ∀ d : Direction, t'.get d.delta = 0
  rest : t'.bytes.take 112 = t.bytes.take 112

/-- The entries of the report are of different classes and have the sums of theirs, every
session is of the class of one entry, and the sessions that are not closed are left. -/
structure Aggregated (s data left : List StreamInfo) : Prop where
  apart : data.Pairwise fun a b => realEqual a b = false
  one : ∀ t ∈ s, ∃! i : ℕ, ∃ e, data[i]? = some e ∧ realEqual t e = true
  sums : ∀ e ∈ data, ∀ d, e.get d.delta = classSum d e s
  kept : List.Forall₂ Cleared (s.filter fun t => t.get isClosed = 0) left

/-- The number of sessions whose bytes an `int` counts. -/
def counted (s : List StreamInfo) : ℕ := s.length % 2 ^ 25

/-- The number of bytes is a positive `int`, the sessions that it does not count, if any, are
closed, have nothing to report and are of the class of one that it counts, and no sum is
larger than a counter. -/
def TakeGood (s : List StreamInfo) : Prop :=
  s = [] ∨ (0 < counted s ∧ counted s < 2 ^ 24 ∧
    (∀ t ∈ s.drop (counted s), t.get isClosed ≠ 0 ∧ (∀ d : Direction, t.get d.delta = 0) ∧
      ∃ u ∈ s.take (counted s), realEqual t u = true) ∧
    ∀ t ∈ s, ∀ d, classSum d t s < 2 ^ 64)

/-! ### The take -/

theorem toInt_bytes (n : ℕ) :
    toInt (128 * n) = if n % 2 ^ 25 < 2 ^ 24 then ((128 * (n % 2 ^ 25) : ℕ) : ℤ)
      else ((128 * (n % 2 ^ 25) : ℕ) : ℤ) - 2 ^ 32 := by
  unfold toInt
  rw [Int.bmod_def]
  split_ifs <;> omega

theorem take_none {s : List StreamInfo} (h : 2 ^ 24 ≤ counted s) :
    skylabTakeTrafficData s = none := by
  have hlt : s.length % 2 ^ 25 < 2 ^ 25 := Nat.mod_lt _ (by omega)
  unfold counted at h
  unfold skylabTakeTrafficData
  dsimp only
  rw [toInt_bytes, if_neg (not_lt.mpr h), if_neg (by omega), if_pos (by omega)]

theorem take_zero {s : List StreamInfo} (h : counted s = 0) :
    skylabTakeTrafficData s = some ⟨[], [], s⟩ := by
  unfold counted at h
  unfold skylabTakeTrafficData
  dsimp only
  rw [toInt_bytes, h, if_pos (by omega)]

theorem take_counted {s : List StreamInfo} (hpos : 0 < counted s) (hlt : counted s < 2 ^ 24) :
    skylabTakeTrafficData s = some ⟨s.take (counted s), (s.take (counted s)).foldl mergeItem [],
      ((s.take (counted s)).filter fun t => t.get isClosed = 0).map resetDeltas⟩ := by
  have hn : toInt (128 * s.length) = ((128 * counted s : ℕ) : ℤ) := by
    unfold counted at hlt ⊢
    rw [toInt_bytes, if_pos hlt]
  have hcount : (toInt (128 * s.length)).toNat / 128 = counted s := by
    rw [hn, Int.toNat_natCast, Nat.mul_div_cancel_left _ (by omega)]
  unfold skylabTakeTrafficData
  dsimp only
  rw [hcount, if_neg (by omega), if_neg (by omega)]

/-! ### The sessions that stay -/

theorem resetDeltas_cleared (t : StreamInfo) : Cleared t (resetDeltas t) where
  deltas d := resetDeltas_delta d t
  rest := (set_delta_take _ .down _).trans (set_delta_take t .up _)

theorem map_resetDeltas (l : List StreamInfo) :
    List.Forall₂ Cleared l (l.map resetDeltas) := by
  induction l with
  | nil => exact List.Forall₂.nil
  | cons t l ih => exact List.Forall₂.cons (resetDeltas_cleared t) ih

/-- The first `k` sessions have all that stay if and only if the others are closed. -/
theorem kept_iff (s : List StreamInfo) (k : ℕ) :
    List.Forall₂ Cleared (s.filter fun t => t.get isClosed = 0)
        (((s.take k).filter fun t => t.get isClosed = 0).map resetDeltas) ↔
      ∀ t ∈ s.drop k, t.get isClosed ≠ 0 := by
  have hsplit : s.filter (fun t => t.get isClosed = 0) =
      (s.take k).filter (fun t => t.get isClosed = 0) ++
        (s.drop k).filter fun t => t.get isClosed = 0 := by
    rw [← List.filter_append, List.take_append_drop]
  have hnil : (s.drop k).filter (fun t => t.get isClosed = 0) = [] ↔
      ∀ t ∈ s.drop k, t.get isClosed ≠ 0 := by
    simp [List.filter_eq_nil_iff]
  rw [← hnil, hsplit]
  constructor
  · intro h
    have hlen := h.length_eq
    rw [List.length_append, List.length_map] at hlen
    exact List.length_eq_zero_iff.mp (by omega)
  · intro h
    rw [h, List.append_nil]
    exact map_resetDeltas _

/-! ### The entries -/

section Entries

variable (p : List StreamInfo)

theorem entries_isMerge : IsMerge classKey p (p.foldl mergeItem []) := by
  rw [foldl_mergeItem_eq]
  exact foldl_isMerge classKey_addDeltas p

theorem entries_delta (d : Direction) {e : StreamInfo} (he : e ∈ p.foldl mergeItem []) :
    e.get d.delta = classSum d e p % 2 ^ 64 := by
  rw [foldl_mergeItem_eq] at he
  have hmod := @foldl_total _ _ _ classKey addDeltas classKey_addDeltas (2 ^ 64)
    (fun t => t.get d.delta) (addDeltas_delta d) p e he
  have hlt : e.get d.delta < 2 ^ 64 := by
    cases d with
    | up => exact e.get_lt deltaUpload
    | down => exact e.get_lt deltaDownload
  rw [classSum_eq, ← hmod, Nat.mod_eq_of_lt hlt]

theorem entries_apart :
    (p.foldl mergeItem []).Pairwise fun a b => realEqual a b = false := by
  have hnodup := List.pairwise_map.mp (entries_isMerge p).nodup
  apply hnodup.imp
  intro a b hne
  rw [Bool.eq_false_iff, Ne, realEqual_iff]
  exact hne

theorem exists_entry_iff (t : StreamInfo) :
    (∃ e ∈ p.foldl mergeItem [], realEqual t e = true) ↔ ∃ u ∈ p, realEqual t u = true := by
  have hkeys := (entries_isMerge p).keys (classKey t)
  simp only [List.mem_map] at hkeys
  simp only [realEqual_iff, eq_comm (a := classKey t)]
  exact hkeys

end Entries

/-- In a list without two items of one class there is at most one of a class. -/
theorem existsUnique_entry {data : List StreamInfo}
    (h : data.Pairwise fun a b => realEqual a b = false) {t : StreamInfo}
    (ht : ∃ e ∈ data, realEqual t e = true) :
    ∃! i : ℕ, ∃ e, data[i]? = some e ∧ realEqual t e = true := by
  obtain ⟨e, he, hte⟩ := ht
  obtain ⟨i, hi⟩ := List.mem_iff_getElem?.mp he
  have hdistinct {i j : ℕ} {a b : StreamInfo} (ha : data[i]? = some a) (hb : data[j]? = some b)
      (hta : realEqual t a = true) (htb : realEqual t b = true) : ¬ i < j := by
    intro hij
    obtain ⟨hilt, rfl⟩ := List.getElem?_eq_some_iff.mp ha
    obtain ⟨hjlt, rfl⟩ := List.getElem?_eq_some_iff.mp hb
    have hne := List.pairwise_iff_getElem.mp h i j hilt hjlt hij
    rw [Bool.eq_false_iff, Ne, realEqual_iff] at hne
    rw [realEqual_iff] at hta htb
    exact hne (hta.symm.trans htb)
  refine ⟨i, ⟨e, hi, hte⟩, ?_⟩
  intro j hj
  obtain ⟨b, hb, htb⟩ := hj
  exact Nat.le_antisymm (not_lt.mp (hdistinct hi hb hte htb))
    (not_lt.mp (hdistinct hb hi htb hte))

theorem classSum_split (d : Direction) (e : StreamInfo) (s : List StreamInfo) (k : ℕ) :
    classSum d e s = classSum d e (s.take k) + classSum d e (s.drop k) := by
  rw [classSum_eq, classSum_eq, classSum_eq, ← totalOf_append, List.take_append_drop]

theorem classSum_congr (d : Direction) {e t : StreamInfo} (h : realEqual t e = true)
    (s : List StreamInfo) : classSum d e s = classSum d t s := by
  rw [classSum_eq, classSum_eq, (realEqual_iff t e).mp h]

theorem classSum_eq_zero_iff (d : Direction) (e : StreamInfo) (s : List StreamInfo) :
    classSum d e s = 0 ↔ ∀ t ∈ s, realEqual t e = true → t.get d.delta = 0 := by
  rw [classSum_eq, totalOf_eq_zero_iff]
  simp only [realEqual_iff]

/-- An entry of the first `k` sessions has the sum of its class over all exactly when the class
has nothing among the others and its sum is not too large. -/
theorem entry_sum_iff (d : Direction) {s : List StreamInfo} {k : ℕ} {e : StreamInfo}
    (he : e ∈ (s.take k).foldl mergeItem []) :
    e.get d.delta = classSum d e s ↔ classSum d e (s.drop k) = 0 ∧ classSum d e s < 2 ^ 64 := by
  have hsplit := classSum_split d e s k
  rw [entries_delta _ d he]
  omega

section Report

variable {s : List StreamInfo} {k : ℕ}

theorem Aggregated.uncounted (h : Aggregated s ((s.take k).foldl mergeItem [])
      (((s.take k).filter fun t => t.get isClosed = 0).map resetDeltas)) :
    (∀ t ∈ s.drop k, t.get isClosed ≠ 0 ∧ (∀ d : Direction, t.get d.delta = 0) ∧
        ∃ u ∈ s.take k, realEqual t u = true) ∧
      ∀ t ∈ s, ∀ d, classSum d t s < 2 ^ 64 := by
  have hentry : ∀ t ∈ s, ∃ e ∈ (s.take k).foldl mergeItem [], realEqual t e = true := by
    intro t ht
    obtain ⟨i, ⟨e, hi, hte⟩, _⟩ := h.one t ht
    exact ⟨e, List.mem_of_getElem? hi, hte⟩
  have hsum : ∀ t ∈ s, ∀ d, classSum d t (s.drop k) = 0 ∧ classSum d t s < 2 ^ 64 := by
    intro t ht d
    obtain ⟨e, he, hte⟩ := hentry t ht
    rw [← classSum_congr d hte, ← classSum_congr d hte]
    exact (entry_sum_iff d he).mp (h.sums e he d)
  refine ⟨?_, fun t ht d => (hsum t ht d).2⟩
  intro t ht
  have hmem : t ∈ s := List.mem_of_mem_drop ht
  refine ⟨(kept_iff s k).mp h.kept t ht, fun d => ?_,
    (exists_entry_iff _ t).mp (hentry t hmem)⟩
  exact (classSum_eq_zero_iff d t _).mp (hsum t hmem d).1 t ht ((realEqual_iff t t).mpr rfl)

theorem aggregated_of_uncounted
    (hdrop : ∀ t ∈ s.drop k, t.get isClosed ≠ 0 ∧ (∀ d : Direction, t.get d.delta = 0) ∧
      ∃ u ∈ s.take k, realEqual t u = true)
    (hlt : ∀ t ∈ s, ∀ d, classSum d t s < 2 ^ 64) :
    Aggregated s ((s.take k).foldl mergeItem [])
      (((s.take k).filter fun t => t.get isClosed = 0).map resetDeltas) where
  apart := entries_apart _
  one t ht := by
    have hcover : ∃ u ∈ s.take k, realEqual t u = true := by
      rw [← List.take_append_drop k s, List.mem_append] at ht
      cases ht with
      | inl hmem => exact ⟨t, hmem, (realEqual_iff t t).mpr rfl⟩
      | inr hmem => exact (hdrop t hmem).2.2
    exact existsUnique_entry (entries_apart _) ((exists_entry_iff _ t).mpr hcover)
  sums e he d := by
    obtain ⟨u, hu, heu⟩ := (exists_entry_iff (s.take k) e).mp
      ⟨e, he, (realEqual_iff e e).mpr rfl⟩
    have hbound := hlt u (List.mem_of_mem_take hu) d
    rw [classSum_congr d heu] at hbound
    refine (entry_sum_iff d he).mpr ⟨?_, hbound⟩
    exact (classSum_eq_zero_iff d e _).mpr fun t ht _ => (hdrop t ht).2.1 d
  kept := (kept_iff s k).mpr fun t ht => (hdrop t ht).1

end Report

/-- The entries of the first `k` sessions have the sums of all if and only if the others have
nothing to report and no sum is too large. -/
theorem aggregated_iff (s : List StreamInfo) (k : ℕ) :
    Aggregated s ((s.take k).foldl mergeItem [])
        (((s.take k).filter fun t => t.get isClosed = 0).map resetDeltas) ↔
      (∀ t ∈ s.drop k, t.get isClosed ≠ 0 ∧ (∀ d : Direction, t.get d.delta = 0) ∧
        ∃ u ∈ s.take k, realEqual t u = true) ∧
      ∀ t ∈ s, ∀ d, classSum d t s < 2 ^ 64 :=
  ⟨Aggregated.uncounted, fun h => aggregated_of_uncounted h.1 h.2⟩

/-- A take reports every class with its sums and leaves the sessions that are not closed if and
only if their bytes fit an `int`, what it misses else has nothing to report, and no sum is
larger than a counter. -/
theorem take_reports_iff (s : List StreamInfo) :
    (∃ out, skylabTakeTrafficData s = some out ∧ Aggregated s out.data out.sessions) ↔
      TakeGood s := by
  unfold TakeGood
  by_cases hnil : s = []
  · subst hnil
    refine ⟨fun _ => Or.inl rfl, fun _ => ⟨_, take_zero rfl, ?_⟩⟩
    exact ⟨List.Pairwise.nil, fun t ht => absurd ht List.not_mem_nil,
      fun e he => absurd he List.not_mem_nil, List.Forall₂.nil⟩
  · rw [or_iff_right hnil]
    by_cases hzero : counted s = 0
    · rw [take_zero hzero]
      constructor
      · rintro ⟨out, hout, hagg⟩
        cases hout
        obtain ⟨t, ht⟩ := List.exists_mem_of_ne_nil s hnil
        obtain ⟨i, ⟨e, hi, _⟩, _⟩ := hagg.one t ht
        exact absurd hi (by simp)
      · exact fun h => absurd hzero (by omega)
    · by_cases hlt : counted s < 2 ^ 24
      · rw [take_counted (by omega) hlt]
        simp only [Option.some.injEq, exists_eq_left']
        rw [aggregated_iff]
        exact ⟨fun h => ⟨by omega, hlt, h⟩, fun h => h.2.2⟩
      · rw [take_none (by omega)]
        constructor
        · rintro ⟨out, hout, _⟩
          cases hout
        · exact fun h => absurd h.2.1 hlt

/-- The bytes of 2^24 sessions are a negative `int`: `malloc` returns null. -/
theorem take_of_large_table :
    ¬ ∃ out, skylabTakeTrafficData (List.replicate (2 ^ 24) zeroRecord) = some out ∧
      Aggregated (List.replicate (2 ^ 24) zeroRecord) out.data out.sessions := by
  have hcount : counted (List.replicate (2 ^ 24) zeroRecord) = 2 ^ 24 := by
    rw [counted, List.length_replicate, Nat.mod_eq_of_lt (by omega)]
  rintro ⟨out, hout, _⟩
  rw [take_none hcount.ge] at hout
  cases hout

end MemoryLeak.Notify.Traffic
