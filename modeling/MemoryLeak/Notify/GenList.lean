import MemoryLeak.CBytes
import MemoryLeak.Streams

/-!
# The growable byte list

`add_item_gen_list` and `get_data_gen_list` on one list. A call runs under
`gen_list_mtx` and is one step. Allocation succeeds; what a reallocated block holds
behind the old one is a parameter.
-/
namespace MemoryLeak.Notify
open MemoryLeak.CBytes MemoryLeak.Runs MemoryLeak.Streams

namespace GenList

/-- `GEN_LIST_STEP`. -/
def genListStep : ℕ := 2 ^ 15

/-- `sizeof(GEN_LIST)`. -/
def sizeofGenList : ℕ := 24

end GenList

open GenList

/-- A list and the bytes of its block behind the header. The bytes used leave at least
one byte free. -/
structure GenList where
  total : ℕ
  usedData : ℕ
  data : Bytes
  size_eq : sizeofGenList + data.length = total
  used_lt : sizeofGenList + usedData < total

namespace GenList

theorem cleared_length {off n : ℕ} (h : off ≤ n) : off + (zeros (n - off)).length = n := by
  rw [zeros_length, Nat.add_sub_cancel' h]

/-- A block of `GEN_LIST_STEP` bytes, cleared. -/
def alloc : GenList where
  total := genListStep
  usedData := 0
  data := zeros (genListStep - sizeofGenList)
  size_eq := cleared_length (by decide)
  used_lt := by decide

/-- `while (up_size < (n+1)) up_size += GEN_LIST_STEP`, with `n + 1` for `need`. -/
def upSize (up need : ℕ) : ℕ :=
  if up < need then upSize (up + genListStep) need else up
termination_by need - up
decreasing_by simp only [genListStep]; omega

theorem le_upSize (up need : ℕ) : up ≤ upSize up need ∧ need ≤ upSize up need := by
  fun_induction upSize up need with
  | case1 up h ih => exact ⟨le_trans (Nat.le_add_right _ _) ih.1, ih.2⟩
  | case2 up h => exact ⟨le_rfl, by omega⟩

variable (junk : ℕ → UInt8)

/-- `realloc(*p, up_size)`. -/
def realloc (t : GenList) (up : ℕ) (h : t.total ≤ up) : GenList where
  total := up
  usedData := t.usedData
  data := t.data ++ (List.range' t.data.length (up - t.total)).map junk
  size_eq := by
    have hsize := t.size_eq
    simp only [List.length_append, List.length_map, List.length_range']
    omega
  used_lt := lt_of_lt_of_le t.used_lt h

/-- The list with room for `n` bytes of block and one more. -/
def makeRoom (t : GenList) (n : ℕ) : GenList :=
  if t.total < n + 1 then
    t.realloc junk (upSize (t.total + genListStep) (n + 1))
      (le_trans (Nat.le_add_right t.total genListStep) (le_upSize _ (n + 1)).1)
  else t

@[simp] theorem realloc_total (t : GenList) {up : ℕ} (h : t.total ≤ up) :
    (t.realloc junk up h).total = up := rfl

@[simp] theorem realloc_usedData (t : GenList) {up : ℕ} (h : t.total ≤ up) :
    (t.realloc junk up h).usedData = t.usedData := rfl

theorem makeRoom_total (t : GenList) (n : ℕ) : n < (t.makeRoom junk n).total := by
  unfold makeRoom
  split
  · rw [realloc_total]
    exact (le_upSize _ _).2
  · omega

@[simp] theorem makeRoom_usedData (t : GenList) (n : ℕ) :
    (t.makeRoom junk n).usedData = t.usedData := by
  unfold makeRoom
  split
  · rw [realloc_usedData]
  · rfl

/-- After making room the item fits behind the bytes stored. -/
theorem makeRoom_fits (t : GenList) {item : BufArg} {b : Bytes} (h : item.ptr = some b) :
    let t' := t.makeRoom junk (t.usedData + sizeofGenList + item.n.toNat)
    sizeofGenList + (t'.usedData + item.bytes.length) < t'.total := by
  have hroom := t.makeRoom_total junk (t.usedData + sizeofGenList + item.n.toNat)
  simp only [makeRoom_usedData, BufArg.length_bytes h]
  omega

/-- The bytes not yet handed out. -/
def unread (t : GenList) : Bytes := t.data.take t.usedData

theorem length_unread (t : GenList) : t.unread.length = t.usedData := by
  have hsize := t.size_eq
  have hused := t.used_lt
  simp only [unread, List.length_take]
  omega

theorem realloc_unread (t : GenList) {up : ℕ} (h : t.total ≤ up) :
    (t.realloc junk up h).unread = t.unread := by
  have hsize := t.size_eq
  have hused := t.used_lt
  simp only [unread, realloc]
  exact List.take_append_of_le_length (by omega)

/-- Enlarging the block keeps the bytes stored. -/
@[simp] theorem makeRoom_unread (t : GenList) (n : ℕ) :
    (t.makeRoom junk n).unread = t.unread := by
  unfold makeRoom
  split
  · rw [realloc_unread]
  · rfl

/-- `memcpy(pdata + t->used_data, item, sz); t->used_data += sz`. -/
def store (t : GenList) (item : Bytes) (h : sizeofGenList + (t.usedData + item.length) < t.total) :
    GenList where
  total := t.total
  usedData := t.usedData + item.length
  data := memcpy t.data t.usedData item
  size_eq := by
    have hsize := t.size_eq
    rw [memcpy_length (by omega), hsize]
  used_lt := h

theorem store_unread (t : GenList) (item : Bytes)
    (h : sizeofGenList + (t.usedData + item.length) < t.total) :
    (t.store item h).unread = t.unread ++ item := by
  have hsize := t.size_eq
  exact memcpy_take_end (by omega) rfl

end GenList

/-- The bytes stored behind a list pointer. -/
def unreadOf (p : Option GenList) : Bytes := p.elim [] GenList.unread

/-- `*sig = 1`, where `sig` is not null. -/
def setSig (sig : Option ℤ) : Option ℤ := sig.map fun _ => 1

section Calls

variable (junk : ℕ → UInt8)

/-- The list after the call, `*sig` after it, and the return value. -/
def addItemTraffic (p : Option GenList) (item : BufArg) (sig : Option ℤ) :
    Option GenList × Option ℤ × ℤ :=
  if item.n < 1 then (p, sig, -1)
  else match hptr : item.ptr with
  | none => (p, sig, -1)
  | some _ =>
    let t := p.getD GenList.alloc
    let sig := if p.isNone then setSig sig else sig
    let sig := if t.usedData = 0 then setSig sig else sig
    let t' := t.makeRoom junk (t.usedData + sizeofGenList + item.n.toNat)
    (some (t'.store item.bytes (t.makeRoom_fits junk hptr)), sig, 0)

/-- `lockErr` tells that taking the lock failed. -/
def addItemGenList (lockErr : Bool) (p : Option GenList) (item : BufArg) (sig : Option ℤ) :
    Option GenList × Option ℤ :=
  if lockErr then (p, sig)
  else
    let r := addItemTraffic junk p item sig
    (r.1, r.2.1)

/-- The list after the call, the return value and `*data`, where it is set. -/
def getDataGenList (lockErr : Bool) (p : Option GenList) : Option GenList × ℤ × Option Bytes :=
  match p with
  | none => (none, 0, none)
  | some t =>
    if lockErr then (some t, 0, none)
    else
      let n := toInt t.usedData
      if n = 0 then (some t, n, none)
      else
        (some { t with usedData := 0, used_lt := lt_of_le_of_lt (by omega) t.used_lt }, n,
          some (memcpy (zeros (n.toNat + 1)) 0 (t.data.take n.toNat)))

inductive GenCall where
  | add (lockErr : Bool) (item : BufArg) (sig : Option ℤ)
  | get (lockErr : Bool)

inductive GenOut where
  /-- `*sig` after the call. -/
  | add (sig : Option ℤ)
  /-- The return value and `*data`. -/
  | get (n : ℤ) (data : Option Bytes)

def genStep (p : Option GenList) : GenCall → Option GenList × GenOut
  | .add lockErr item sig =>
    let r := addItemGenList junk lockErr p item sig
    (r.1, .add r.2)
  | .get lockErr =>
    let r := getDataGenList lockErr p
    (r.1, .get r.2.1 r.2.2)

/-- The item a call adds: none if it is a read, if the lock fails, if the data is null
or the length is below 1. -/
def GenCall.item : GenCall → Bytes
  | .add lockErr item _ => if lockErr then [] else item.bytes
  | .get _ => []

/-- The bytes a call hands out. -/
def GenOut.bytes : GenOut → Bytes
  | .add _ => []
  | .get n data => (data.getD []).take n.toNat

@[simp] theorem setSig_setSig (sig : Option ℤ) : setSig (setSig sig) = setSig sig := by
  cases sig <;> rfl

theorem GenList.usedData_eq_zero_iff (t : GenList) : t.usedData = 0 ↔ t.unread = [] := by
  rw [← t.length_unread, List.length_eq_zero_iff]

/-! ### One call -/

/-- The stored item is behind what the list held, a null list holding nothing. -/
theorem addItemTraffic_stores (p : Option GenList) {item : BufArg} (sig : Option ℤ)
    (hitem : item.bytes ≠ []) :
    ∃ t, addItemTraffic junk p item sig =
        (some t, if unreadOf p = [] then setSig sig else sig, 0) ∧
      t.unread = unreadOf p ++ item.bytes := by
  unfold addItemTraffic
  split
  · next hn =>
    have hzero : item.n.toNat = 0 := by omega
    exact absurd (by simp [BufArg.bytes, hzero]) hitem
  · split
    · next hptr => exact absurd (by simp [BufArg.bytes, hptr]) hitem
    · cases p with
      | none =>
        have halloc : GenList.alloc.unread = [] := rfl
        refine ⟨_, Prod.ext rfl (Prod.ext (by simp [GenList.alloc, unreadOf]) rfl), ?_⟩
        rw [GenList.store_unread, GenList.makeRoom_unread]
        exact congrArg (· ++ item.bytes) halloc
      | some t =>
        have hsig : (if t.usedData = 0 then setSig sig else sig) =
            if unreadOf (some t) = [] then setSig sig else sig :=
          if_congr t.usedData_eq_zero_iff rfl rfl
        refine ⟨_, Prod.ext rfl (Prod.ext hsig rfl), ?_⟩
        rw [GenList.store_unread, GenList.makeRoom_unread]
        rfl

theorem addItemTraffic_keeps (p : Option GenList) {item : BufArg} (sig : Option ℤ)
    (hitem : item.bytes = []) : addItemTraffic junk p item sig = (p, sig, -1) := by
  unfold addItemTraffic
  split
  · rfl
  · next hn =>
    split
    · rfl
    · next b hptr =>
      have hlen := BufArg.length_bytes hptr
      rw [hitem, List.length_nil] at hlen
      omega

/-- An add stores its item behind the unread bytes and sets `*sig` if there were none. -/
theorem add_step (p : Option GenList) (lockErr : Bool) (item : BufArg) (sig : Option ℤ) :
    ∃ q, genStep junk p (.add lockErr item sig) =
        (q, .add (if (GenCall.add lockErr item sig).item ≠ [] ∧ unreadOf p = [] then setSig sig
          else sig)) ∧
      unreadOf q = unreadOf p ++ (GenCall.add lockErr item sig).item := by
  cases lockErr with
  | true => exact ⟨p, by simp [genStep, addItemGenList, GenCall.item], by simp [GenCall.item]⟩
  | false =>
    by_cases hitem : item.bytes = []
    · have hadd := addItemTraffic_keeps junk p sig hitem
      exact ⟨p, by simp [genStep, addItemGenList, hadd, GenCall.item, hitem],
        by simp [GenCall.item, hitem]⟩
    · obtain ⟨t, hadd, hunread⟩ := addItemTraffic_stores junk p sig hitem
      exact ⟨some t, by simp [genStep, addItemGenList, hadd, GenCall.item, hitem],
        by simpa [GenCall.item, unreadOf] using hunread⟩

/-- A get hands out all unread bytes and keeps the block. -/
theorem get_step {p : Option GenList} (hp : (unreadOf p).length < 2 ^ 31) (lockErr : Bool) :
    ∃ q o, genStep junk p (.get lockErr) = (q, o) ∧
      o.bytes = (if lockErr then [] else unreadOf p) ∧
      unreadOf q = (if lockErr then unreadOf p else []) := by
  cases p with
  | none => exact ⟨none, .get 0 none, rfl, by simp [GenOut.bytes, unreadOf], by simp [unreadOf]⟩
  | some t =>
    cases lockErr with
    | true => exact ⟨some t, _, rfl, rfl, rfl⟩
    | false =>
      have hint : toInt t.usedData = t.usedData := toInt_of_lt (by rwa [← t.length_unread])
      by_cases hzero : t.usedData = 0
      · have hnil := t.usedData_eq_zero_iff.mp hzero
        have hint' : toInt t.usedData = 0 := by rw [hint, hzero, Int.natCast_zero]
        refine ⟨some t, .get 0 none, by simp [genStep, getDataGenList, hint'], ?_, ?_⟩
        · simpa [GenOut.bytes, unreadOf] using hnil
        · simpa [unreadOf] using hnil
      · have hint' : toInt t.usedData ≠ 0 := by rw [hint]; omega
        refine ⟨_, _, by simp only [genStep, getDataGenList, Bool.false_eq_true, if_false,
          if_neg hint']; rfl, ?_, ?_⟩
        · simp only [GenOut.bytes, hint, Int.toNat_natCast, Option.getD_some, Bool.false_eq_true,
            if_false, memcpy_zeros]
          exact List.take_left' t.length_unread
        · rfl

/-! ### Runs -/

/-- The calls made on a null list, and their results. -/
def genRun (calls : List GenCall) : Option GenList × List GenOut :=
  exec (genStep junk) none calls

/-- What the gets return, followed by what is still stored, is what was added; an add
sets `*sig` exactly when it stores into an empty buffer. -/
theorem gen_list_stream (calls : List GenCall)
    (hunread : ∀ k < calls.length, (unreadOf (genRun junk (calls.take k)).1).length < 2 ^ 31 - 1) :
    (genRun junk calls).2.flatMap GenOut.bytes ++ unreadOf (genRun junk calls).1 =
        calls.flatMap GenCall.item ∧
      ∀ k lockErr item sig, calls[k]? = some (.add lockErr item sig) →
        (genRun junk calls).2[k]? = some (GenOut.add
          (if (GenCall.add lockErr item sig).item ≠ [] ∧
              unreadOf (genRun junk (calls.take k)).1 = [] then setSig sig else sig)) := by
  constructor
  · have hstep : ∀ (p : Option GenList) (c : GenCall), (unreadOf p).length < 2 ^ 31 - 1 →
        (genStep junk p c).2.bytes ++ unreadOf (genStep junk p c).1 = unreadOf p ++ c.item := by
      intro p c hp
      cases c with
      | add lockErr item sig =>
        obtain ⟨q, hadd, hq⟩ := add_step junk p lockErr item sig
        rw [hadd]
        exact hq
      | get lockErr =>
        obtain ⟨q, o, hget, hbytes, hq⟩ := get_step junk (p := p) (by omega) lockErr
        rw [hget, hbytes, hq]
        cases lockErr <;> simp [GenCall.item]
    refine exec_conserves hstep (along_of_getElem? fun k c hc => hunread k ?_)
    exact (List.getElem?_eq_some_iff.mp hc).1
  · intro k lockErr item sig hc
    obtain ⟨q, hadd, -⟩ := add_step junk (genRun junk (calls.take k)).1 lockErr item sig
    rw [genRun] at hadd
    rw [genRun, exec_getElem?, hc, Option.map_some, hadd]
    rfl

end Calls

/-- The call that adds some bytes with `*sig` cleared. -/
def addBytes (b : Bytes) (h : b.length < 2 ^ 31) : GenCall :=
  .add false (.ofBytes b h) (some 0)

theorem gen_list_stream_sample :
    let calls := [addBytes [1, 2, 3] (by decide), .get false, addBytes [4] (by decide)]
    let junk : ℕ → UInt8 := fun _ => 0
    (∀ k < calls.length, (unreadOf (genRun junk (calls.take k)).1).length < 2 ^ 31 - 1) ∧
    ((genRun junk calls).2.flatMap GenOut.bytes ++ unreadOf (genRun junk calls).1 =
        calls.flatMap GenCall.item ∧
      ∀ k lockErr item sig, calls[k]? = some (.add lockErr item sig) →
        (genRun junk calls).2[k]? = some (GenOut.add
          (if (GenCall.add lockErr item sig).item ≠ [] ∧
              unreadOf (genRun junk (calls.take k)).1 = [] then setSig sig else sig))) := by
  have hunread : ∀ k < 3, (unreadOf (genRun (fun _ => 0)
      ([addBytes [1, 2, 3] (by decide), .get false, addBytes [4] (by decide)].take k)).1).length
        < 2 ^ 31 - 1 := by
    decide +kernel
  exact ⟨hunread, gen_list_stream (fun _ => 0) _ hunread⟩

end MemoryLeak.Notify
