import MemoryLeak.SlotIndex
import Mathlib.Data.List.Find

/-!
# Rows and slots in one table

An index whose rows and slots share an array: cell `k` holds row `k` and the slots of
bucket `k`. A cell outside of the array, and a row that was not written, have no outcome.
-/
namespace MemoryLeak.SlotTable
open MemoryLeak.SlotIndex

variable {ρ κ : Type*} [DecidableEq κ]

structure Cell (ρ : Type*) where
  row : Option ρ
  h : List ℤ

/-- The number of rows, and the cells. -/
structure Table (ρ : Type*) where
  i : ℕ
  cells : List (Cell ρ)

/-- A table for `n` rows: `n` cells with `cap` free slots, and a zeroed one behind them. -/
def init (n cap : ℕ) : Table ρ :=
  ⟨0, List.replicate n ⟨none, List.replicate cap (-1)⟩ ++ [⟨none, List.replicate cap 0⟩]⟩

/-- Index the next row in a bucket, then write it. -/
def write (t : Table ρ) (index : ℤ) (r : ρ) : Option (Table ρ) :=
  if 0 ≤ index ∧ index.toNat < t.cells.length ∧ t.i < t.cells.length then
    let cells := t.cells.modify index.toNat fun e => { e with h := fillSlot t.i e.h }
    some ⟨t.i + 1, cells.modify t.i fun e => { e with row := some r }⟩
  else none

/-- Follow slots to a row with a key; a free slot ends the search. -/
def follow (key : ρ → κ) (cells : List (Cell ρ)) (k : κ) : List ℤ → Option (Option ρ)
  | [] => some none
  | x :: xs =>
    if x < 0 then some none
    else do
      let e ← cells[x.toNat]?
      let r ← e.row
      if key r = k then some (some r) else follow key cells k xs

/-- The search in a bucket; a negative number is none. -/
def lookup (key : ρ → κ) (t : Table ρ) (k : κ) (bucket : ℤ) : Option (Option ρ) :=
  if -1 < bucket then do
    let e ← t.cells[bucket.toNat]?
    follow key t.cells k e.h
  else some none

/-- The table holds an index with `n` buckets. -/
structure Represents (n : ℕ) (t : Table ρ) (s : Index ℤ ρ) : Prop where
  i : t.i = s.rows.length
  length : t.cells.length = n + 1
  row : ∀ {k : ℕ} {r : ρ}, s.rows[k]? = some r → ∃ e, t.cells[k]? = some e ∧ e.row = some r
  slots : ∀ {b : ℕ}, b < n → ∃ e, t.cells[b]? = some e ∧ e.h = s.slots b

/-- What a write leaves in a cell. -/
theorem write_eq {t : Table ρ} {b : ℕ} (hb : b < t.cells.length) (hi : t.i < t.cells.length)
    (r : ρ) : ∃ t', write t b r = some t' ∧ t'.i = t.i + 1 ∧ t'.cells.length = t.cells.length ∧
      ∀ (k : ℕ) (e : Cell ρ), t.cells[k]? = some e → t'.cells[k]? =
        some ⟨if t.i = k then some r else e.row, if b = k then fillSlot t.i e.h else e.h⟩ := by
  refine ⟨_, if_pos ⟨Int.natCast_nonneg b, hb, hi⟩, rfl, ?_, fun k e he => ?_⟩
  · rw [List.length_modify, List.length_modify]
  · rw [Int.toNat_natCast, List.getElem?_modify, List.getElem?_modify, he]
    simp only [Option.map_eq_map, Option.map_some]
    split_ifs <;> rfl

namespace Represents

variable {n : ℕ} {t : Table ρ} {s : Index ℤ ρ}

theorem init (n cap : ℕ) : Represents n (init n cap : Table ρ) (empty cap) where
  i := rfl
  length := by simp [SlotTable.init]
  row := by simp [empty]
  slots := by
    intro b hb
    refine ⟨⟨none, List.replicate cap (-1)⟩, ?_, rfl⟩
    rw [SlotTable.init, List.getElem?_append_left (by rwa [List.length_replicate]),
      List.getElem?_replicate, if_pos hb]

/-- Writing a row inserts it. -/
theorem write (h : Represents n t s) {b : ℕ} (hb : b < n) (hroom : s.rows.length ≤ n) (r : ρ) :
    ∃ t', write t b r = some t' ∧ Represents n t' (SlotIndex.insert s (b : ℤ) r) := by
  obtain ⟨t', hwrite, hi, hlen, hcell⟩ := write_eq (t := t) (b := b) (by rw [h.length]; omega)
    (by rw [h.length, h.i]; omega) r
  refine ⟨t', hwrite, ?_, hlen.trans h.length, ?_, ?_⟩
  · rw [hi, h.i, SlotIndex.insert, List.length_append, List.length_singleton]
  · intro k x hx
    rw [SlotIndex.insert] at hx
    by_cases hk : k = s.rows.length
    · have hxr : r = x := by
        rw [hk, List.getElem?_concat_length] at hx
        exact Option.some.inj hx
      have hbound : k < t.cells.length := by
        rw [h.length]
        omega
      refine ⟨_, hcell k _ (List.getElem?_eq_getElem hbound), ?_⟩
      simp only [if_pos (h.i.trans hk.symm), hxr]
    · have hold : s.rows[k]? = some x := by
        have hlt := (List.getElem?_eq_some_iff.mp hx).1
        rw [List.length_append, List.length_singleton] at hlt
        rwa [List.getElem?_append_left (by omega)] at hx
      obtain ⟨e, he, hrow⟩ := h.row hold
      refine ⟨_, hcell k e he, ?_⟩
      have hne : t.i ≠ k := fun hik => hk (hik.symm.trans h.i)
      simp only [if_neg hne, hrow]
  · intro c hc
    obtain ⟨e, he, hslots⟩ := h.slots hc
    refine ⟨_, hcell c e he, ?_⟩
    by_cases hbc : b = c
    · subst hbc
      simp only [SlotIndex.insert, Function.update_self, if_true, hslots, h.i]
    · have hne : (c : ℤ) ≠ b := fun h => hbc (Int.ofNat_inj.mp h).symm
      simp only [SlotIndex.insert, Function.update_of_ne hne, if_neg hbc, hslots]

/-- The slots of a bucket lead to stored rows: the search is that of the index. -/
theorem follow (h : Represents n t s) (key : ρ → κ) (k : κ) {xs : List ℤ}
    (hxs : ∀ x ∈ xs, 0 ≤ x → x.toNat < s.rows.length) :
    follow key t.cells k xs = some (probe key s.rows k xs) := by
  induction xs with
  | nil => rfl
  | cons x xs ih =>
    rw [List.forall_mem_cons] at hxs
    rw [SlotTable.follow, probe]
    split_ifs with hx
    · rfl
    · have hrow := List.getElem?_eq_getElem (hxs.1 (by omega))
      obtain ⟨e, he, her⟩ := h.row hrow
      simp only [he, her, hrow, bind, Option.bind_some, ih hxs.2]
      split_ifs <;> rfl

end Represents

section Load

variable (n cap : ℕ) (bucket : ρ → ℕ)

/-- Rows are written one after the other and leave the index that is loaded. -/
theorem foldlM_write (step : Table ρ → ρ → Option (Table ρ)) {rows : List ρ}
    (hstep : ∀ r ∈ rows, ∀ t, step t r = write t (bucket r) r) (hlen : rows.length ≤ n)
    (hbucket : ∀ r ∈ rows, bucket r < n) :
    ∃ t, rows.foldlM step (init n cap) = some t ∧
      Represents n t (load cap (fun r => (bucket r : ℤ)) rows) := by
  induction rows using List.reverseRecOn with
  | nil => exact ⟨_, rfl, .init n cap⟩
  | append_singleton rows r ih =>
    rw [List.length_append, List.length_singleton] at hlen
    rw [List.forall_mem_append, List.forall_mem_singleton] at hbucket hstep
    obtain ⟨t, hrun, ht⟩ := ih hstep.1 (by omega) hbucket.1
    obtain ⟨t', hwrite, ht'⟩ := ht.write hbucket.2 (by rw [load_rows]; omega) r
    refine ⟨t', ?_, ?_⟩
    · rw [List.foldlM_append, hrun]
      simp only [bind, Option.bind_some, List.foldlM_cons, List.foldlM_nil, hstep.2, hwrite]
      rfl
    · rw [load_snoc]
      exact ht'

end Load

/-! ### What buckets hold and searches find -/

/-- The used slots of a bucket come first and hold the numbers of stored rows of the bucket,
in the order in which these were stored. -/
def BucketSound (cap : ℕ) (t : Table ρ) (rows : List ρ) (bucket : ρ → ℕ) (b : ℕ) : Prop :=
  ∃ (e : Cell ρ) (ks : List ℕ), t.cells[b]? = some e ∧ ks.length ≤ cap ∧
    e.h = ks.map Nat.cast ++ List.replicate (cap - ks.length) (-1) ∧ ks.Pairwise (· < ·) ∧
    ∀ k ∈ ks, ∃ r c, rows[k]? = some r ∧ t.cells[k]? = some c ∧ c.row = some r ∧ bucket r = b

/-- A search in a bucket has an outcome: no row with another key, and the first row with the
key where the bucket has no more rows than slots. -/
def SearchSound (cap : ℕ) (rows : List ρ) (bucket : ρ → ℕ) (key : ρ → κ) (k : κ) (b : ℕ)
    (result : Option (Option ρ)) : Prop :=
  ∃ found, result = some found ∧ (∀ r ∈ found, r ∈ rows ∧ key r = k) ∧
    (rows.countP (fun r => bucket r = b) ≤ cap → found = rows.find? fun r => key r = k)

namespace Represents

variable {n cap : ℕ} {bucket : ρ → ℕ} {t : Table ρ} {rows : List ρ} {b : ℕ}

/-- The numbers in a bucket. -/
theorem numbers (h : Represents n t (load cap (fun r => (bucket r : ℤ)) rows)) (hb : b < n) :
    ∃ (e : Cell ρ) (ks : List ℕ), t.cells[b]? = some e ∧ e.h = slotsOf cap ks ∧
      (load cap (fun r => (bucket r : ℤ)) rows).slots b = slotsOf cap ks ∧ ks.Pairwise (· < ·) ∧
      ∀ k ∈ ks, ∃ r, rows[k]? = some r ∧ bucket r = b := by
  obtain ⟨e, he, hslots⟩ := h.slots hb
  obtain ⟨ks, hload, hks, hinc⟩ := load_slots cap (fun r => (bucket r : ℤ)) rows (b : ℤ)
  refine ⟨e, ks, he, hslots.trans hload, hload, hinc, fun k hk => ?_⟩
  have hsome : rows[k]? ∈ (rows.filter fun r => (bucket r : ℤ) = b).map some :=
    hks ▸ List.mem_map_of_mem hk
  obtain ⟨r, hr, heq⟩ := List.mem_map.mp hsome
  have hbr := (List.mem_filter.mp hr).2
  exact ⟨r, heq.symm, Int.ofNat_inj.mp (of_decide_eq_true hbr)⟩

theorem bucketSound (h : Represents n t (load cap (fun r => (bucket r : ℤ)) rows)) (hb : b < n) :
    BucketSound cap t rows bucket b := by
  obtain ⟨e, ks, he, hslots, -, hinc, hrows⟩ := h.numbers hb
  refine ⟨e, ks.take cap, he, ?_, ?_, hinc.sublist (List.take_sublist cap ks), fun k hk => ?_⟩
  · rw [List.length_take]
    omega
  · rw [hslots, slotsOf_eq, List.length_take]
    congr 2
    omega
  · obtain ⟨r, hr, hbr⟩ := hrows k (List.mem_of_mem_take hk)
    obtain ⟨c, hc, hcr⟩ := h.row (show (load cap (fun r => (bucket r : ℤ)) rows).rows[k]? =
        some r by
      rwa [load_rows])
    exact ⟨r, c, hr, hc, hcr, hbr⟩

theorem searchSound (h : Represents n t (load cap (fun r => (bucket r : ℤ)) rows)) (hb : b < n)
    (key : ρ → κ) (k : κ) (hkey : ∀ r ∈ rows, key r = k → bucket r = b) :
    SearchSound cap rows bucket key k b (lookup key t k b) := by
  obtain ⟨e, ks, he, hslots, hload, -, hrows⟩ := h.numbers hb
  have hbound : ∀ x ∈ e.h, 0 ≤ x →
      x.toNat < (load cap (fun r => (bucket r : ℤ)) rows).rows.length := by
    intro x hx hpos
    rw [hslots, slotsOf_eq, List.mem_append, List.mem_map, List.mem_replicate] at hx
    rcases hx with ⟨j, hj, rfl⟩ | ⟨-, rfl⟩
    · obtain ⟨r, hr, -⟩ := hrows j (List.mem_of_mem_take hj)
      rw [load_rows, Int.toNat_natCast]
      exact (List.getElem?_eq_some_iff.mp hr).1
    · omega
  have hfound : lookup key t k b =
      some (((rows.filter fun r => (bucket r : ℤ) = b).take cap).find? fun r => key r = k) := by
    have hprobe := probe_load cap (fun r => (bucket r : ℤ)) key rows (b : ℤ) k
    rw [hload, ← hslots] at hprobe
    rw [lookup, if_pos (by omega), Int.toNat_natCast, he, ← hprobe]
    exact h.follow key k hbound
  refine ⟨_, hfound, fun r hr => ?_, fun hcount => ?_⟩
  · have hmem := List.mem_of_mem_take (List.mem_of_find?_eq_some hr)
    exact ⟨(List.mem_filter.mp hmem).1, by simpa using List.find?_some hr⟩
  · rw [List.countP_eq_length_filter] at hcount
    simp only [Int.natCast_inj]
    rw [List.take_of_length_le hcount, List.find?_filter]
    refine List.find?_congr fun r hr => ?_
    by_cases hk : key r = k
    · simp [hk, hkey r hr hk]
    · simp [hk]

end Represents

end MemoryLeak.SlotTable
