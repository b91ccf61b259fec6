import MemoryLeak.Notify.GenList
import Mathlib.Tactic.NormNum

/-!
# The capacity of the growable list

`add_item_traffic` and `get_data_gen_list` once more, over an allocation whose size is kept apart
from `total`, with 64-bit arithmetic. A copy that leaves an allocation, and a loop that does not
end, have no outcome; a failed allocation that is looked at ends the program.
-/
namespace MemoryLeak.Notify
open MemoryLeak.CBytes MemoryLeak.Runs GenList

/-- `malloc` and `realloc` during one call: whether they find memory for a size, and what stands
behind the bytes that `realloc` keeps. No object has more than `PTRDIFF_MAX` bytes. -/
structure Allocator where
  ok : ℕ → Bool
  junk : ℕ → UInt8
  bounded : ∀ n, 2 ^ 63 ≤ n → ok n = false

namespace GenBlock

/-- `offsetof(GEN_LIST, data)`. -/
def offData : ℕ := 20

end GenBlock

open GenBlock

/-- `GEN_LIST`, and the bytes of its allocation from `data` on. -/
structure GenBlock where
  total : ℕ
  usedData : ℕ
  data : Bytes

namespace GenBlock

/-- `GEN_LIST_STEP` bytes, cleared. -/
def fresh : GenBlock := ⟨genListStep, 0, zeros (genListStep - offData)⟩

end GenBlock

/-- The program with the list pointer, or after `exit(1)`. -/
inductive GenProc where
  | exited
  | running (p : Option GenBlock)

/-- `while (up_size < (n+1)) up_size += GEN_LIST_STEP`. After `fuel` turns every value of
`up_size` has come back. -/
def growLoop : ℕ → ℕ → ℕ → Option ℕ
  | 0, _, _ => none
  | fuel + 1, up, need =>
    if up < need then growLoop fuel ((up + genListStep) % 2 ^ 64) need else some up

/-- The list with room for `need` bytes: no outcome, `exit(1)`, or the list. -/
def growList (A : Allocator) (t : GenBlock) (need : ℕ) : Option (Option GenBlock) :=
  if t.total < need then
    match growLoop (2 ^ 49) ((t.total + genListStep) % 2 ^ 64) need with
    | none => none
    | some up =>
      if A.ok up then
        let kept := t.data ++ (List.range' t.data.length (up - offData - t.data.length)).map A.junk
        some (some ⟨up, t.usedData, kept.take (up - offData)⟩)
      else some none
  else some (some t)

/-- `add_item_traffic`: the program after the call, `*sig`, and the value returned. -/
def addItemTrafficRaw (A : Allocator) (p : Option GenBlock) (item : BufArg) (sig : Option ℤ) :
    Option (GenProc × Option ℤ × ℤ) :=
  if item.n < 1 then some (.running p, sig, -1)
  else if item.ptr.isNone then some (.running p, sig, -1)
  else if p.isNone ∧ A.ok genListStep = false then some (.exited, sig, -1)
  else
    let t := p.getD GenBlock.fresh
    let sig := if p.isNone then setSig sig else sig
    let sig := if t.usedData = 0 then setSig sig else sig
    let n := (t.usedData + sizeofGenList + item.n.toNat) % 2 ^ 64
    match growList A t ((n + 1) % 2 ^ 64) with
    | none => none
    | some none => some (.exited, sig, -1)
    | some (some t) =>
      if t.data.length < t.usedData + item.bytes.length then none
      else
        let used := (t.usedData + item.bytes.length) % 2 ^ 64
        some (.running (some ⟨t.total, used, memcpy t.data t.usedData item.bytes⟩), sig, 0)

/-- `get_data_gen_list`: the program, the value returned, and `*data` where it is set. The count
becomes an `int`, `n + 1` is one too, and the result of `malloc(n+1)` is not looked at. -/
def getDataGenListRaw (A : Allocator) (lockErr : Bool) (p : Option GenBlock) :
    Option (GenProc × ℤ × Option Bytes) :=
  match p with
  | none => some (.running none, 0, none)
  | some t =>
    if lockErr then some (.running (some t), 0, none)
    else
      let n := toInt t.usedData
      if n = 0 then some (.running (some t), n, none)
      else if 0 < n ∧ n + 1 < 2 ^ 31 ∧ A.ok (n.toNat + 1) ∧ n.toNat ≤ t.data.length then
        some (.running (some { t with usedData := 0 }), n,
          some (memcpy (zeros (n.toNat + 1)) 0 (t.data.take n.toNat)))
      else none

inductive CapacityCall where
  | add (A : Allocator) (item : BufArg) (sig : Option ℤ)
  | get (A : Allocator) (lockErr : Bool)

def capacityStep : GenProc → CapacityCall → Option GenProc
  | .exited, _ => some .exited
  | .running p, .add A item sig => (addItemTrafficRaw A p item sig).map fun r => r.1
  | .running p, .get A lockErr => (getDataGenListRaw A lockErr p).map fun r => r.1

/-- The allocation has `total` bytes, and the bytes stored leave one free. -/
structure GenBlock.Fits (t : GenBlock) : Prop where
  size : offData + t.data.length = t.total
  used : sizeofGenList + t.usedData < t.total
  bounded : t.total < 2 ^ 63

def GenProc.Fits : GenProc → Prop
  | .exited => True
  | .running p => ∀ t ∈ p, t.Fits

/-- An item is stored behind what the list held: the copy ends inside the allocation, which grew
by the least number of steps, and the bytes before it are the same. -/
structure StoredBehind (t t' : GenBlock) (item : Bytes) : Prop where
  used : t'.usedData = t.usedData + item.length
  inside : t.usedData + item.length ≤ t'.data.length
  steps : ∃ k, t'.total = t.total + k * genListStep ∧
    ∀ j < k, t.total + j * genListStep ≤ sizeofGenList + t.usedData + item.length
  before : t'.data.take t.usedData = t.data.take t.usedData
  item : (t'.data.drop t.usedData).take item.length = item

/-- What one call does to a list. -/
def CallStores (s : GenProc) (c : CapacityCall) (s' : GenProc) : Prop :=
  match s, c with
  | .exited, _ => s' = .exited
  | .running p, .add _ item _ =>
    if item.bytes = [] then s' = .running p
    else s' = .exited ∨ ∃ t', s' = .running (some t') ∧
      StoredBehind (p.getD GenBlock.fresh) t' item.bytes
  | .running p, .get _ _ => s' = .running p ∨
    ∃ t ∈ p, s' = .running (some { t with usedData := 0 })

/-- A drain finds a count that is an `int` with its successor, and memory for it. -/
def DrainFits : GenProc → CapacityCall → Prop
  | .running (some t), .get A false =>
    toInt t.usedData = 0 ∨ 0 < toInt t.usedData ∧ toInt t.usedData + 1 < 2 ^ 31 ∧
      A.ok ((toInt t.usedData).toNat + 1) = true
  | _, _ => True

theorem cleared_size {t : GenBlock} (hdata : t.data = zeros (t.total - offData))
    (hle : offData ≤ t.total) : offData + t.data.length = t.total := by
  rw [hdata, zeros_length, Nat.add_sub_cancel' hle]

theorem fresh_fits : GenBlock.fresh.Fits where
  size := cleared_size rfl (by norm_num [GenBlock.fresh, genListStep, offData])
  used := by norm_num [GenBlock.fresh, genListStep, sizeofGenList]
  bounded := by norm_num [GenBlock.fresh, genListStep]

/-- The loop ends after the least number of steps that reaches `need`. -/
theorem growLoop_spec {fuel up need : ℕ} (hfuel : need ≤ up + fuel * genListStep)
    (hneed : need + genListStep ≤ 2 ^ 64) :
    ∃ k, growLoop (fuel + 1) up need = some (up + k * genListStep) ∧
      need ≤ up + k * genListStep ∧ ∀ j < k, up + j * genListStep < need := by
  induction fuel generalizing up with
  | zero =>
    refine ⟨0, ?_, by omega, by omega⟩
    rw [growLoop, if_neg (by omega)]
    simp
  | succ fuel ih =>
    rw [growLoop]
    by_cases hlt : up < need
    · have hmod : (up + genListStep) % 2 ^ 64 = up + genListStep := Nat.mod_eq_of_lt (by omega)
      obtain ⟨k, hk, hge, hleast⟩ := @ih (up + genListStep) (by
        rw [Nat.succ_mul] at hfuel
        omega)
      have hnext : ∀ j, up + (j + 1) * genListStep = up + genListStep + j * genListStep := by
        intro j
        rw [Nat.succ_mul]
        omega
      refine ⟨k + 1, ?_, ?_, ?_⟩
      · rw [if_pos hlt, hmod, hk, hnext]
      · rw [hnext]
        exact hge
      · intro j hj
        cases j with
        | zero => simpa using hlt
        | succ j =>
          rw [hnext]
          exact hleast j (by omega)
    · exact ⟨0, by simp [hlt], by omega, by omega⟩

/-! ### One call -/

/-- A list with room for an item: it has grown by the least number of steps, and the bytes stored
are the same. -/
structure Grown (t t' : GenBlock) (n : ℕ) : Prop where
  fits : t'.Fits
  room : sizeofGenList + t.usedData + n < t'.total
  used : t'.usedData = t.usedData
  steps : ∃ k, t'.total = t.total + k * genListStep ∧
    ∀ j < k, t.total + j * genListStep ≤ sizeofGenList + t.usedData + n
  before : t'.data.take t.usedData = t.data.take t.usedData

theorem Grown.same {t : GenBlock} (ht : t.Fits) {n : ℕ}
    (hroom : ¬ t.total < t.usedData + sizeofGenList + n + 1) : Grown t t n where
  fits := ht
  room := by omega
  used := rfl
  steps := ⟨0, by simp, by omega⟩
  before := rfl

/-- The list after `realloc` to the first size on the way that has room. -/
theorem Grown.realloc {t : GenBlock} (ht : t.Fits) {n k : ℕ}
    (hroom : t.total < t.usedData + sizeofGenList + n + 1)
    (hge : t.usedData + sizeofGenList + n + 1 ≤ t.total + genListStep + k * genListStep)
    (hleast : ∀ j < k,
      t.total + genListStep + j * genListStep < t.usedData + sizeofGenList + n + 1)
    {kept : Bytes} (hlt : t.total + genListStep + k * genListStep < 2 ^ 63)
    (hkept : t.total + genListStep + k * genListStep - offData ≤ (t.data ++ kept).length) :
    Grown t ⟨t.total + genListStep + k * genListStep, t.usedData,
      (t.data ++ kept).take (t.total + genListStep + k * genListStep - offData)⟩ n := by
  obtain ⟨hsize, hused, _⟩ := ht
  have hheader : sizeofGenList = 24 := rfl
  have hoff : offData = 20 := rfl
  have hdata : t.usedData ≤ t.data.length := by omega
  refine ⟨⟨?_, by dsimp only; omega, hlt⟩, by dsimp only; omega, rfl, ⟨k + 1, ?_, ?_⟩, ?_⟩
  · dsimp only
    rw [List.length_take_of_le hkept]
    omega
  · dsimp only
    rw [Nat.succ_mul]
    omega
  · intro j hj
    cases j with
    | zero => omega
    | succ j =>
      have hj' := hleast j (by omega)
      rw [Nat.succ_mul]
      omega
  · dsimp only
    rw [List.take_take, Nat.min_eq_left (by omega), List.take_append_of_le_length hdata]

/-- The list has room for the item, or the program ended at a size that was not found. -/
theorem growList_spec (A : Allocator) {t : GenBlock} (ht : t.Fits) {n : ℕ} (hn : n < 2 ^ 31) :
    (∃ t', growList A t (t.usedData + sizeofGenList + n + 1) = some (some t') ∧ Grown t t' n) ∨
    (growList A t (t.usedData + sizeofGenList + n + 1) = some none ∧
      ∃ m, m ≤ t.total + genListStep + n + 1 ∧ A.ok m = false) := by
  have hbounded := ht.bounded
  have hused := ht.used
  have hsize := ht.size
  have hstep : genListStep = 2 ^ 15 := rfl
  have hheader : sizeofGenList = 24 := rfl
  have hoff : offData = 20 := rfl
  unfold growList
  by_cases hroom : t.total < t.usedData + sizeofGenList + n + 1
  · rw [if_pos hroom]
    have hmod : (t.total + genListStep) % 2 ^ 64 = t.total + genListStep :=
      Nat.mod_eq_of_lt (by omega)
    obtain ⟨fuel, hfuel⟩ : ∃ fuel, 2 ^ 49 = fuel + 1 := ⟨_, (Nat.succ_pred (by norm_num)).symm⟩
    obtain ⟨k, hloop, hge, hleast⟩ := @growLoop_spec fuel (t.total + genListStep)
      (t.usedData + sizeofGenList + n + 1) (by rw [hstep]; omega) (by omega)
    rw [hfuel, hmod, hloop]
    dsimp only
    have hup : t.total + genListStep + k * genListStep ≤ t.total + genListStep + n + 1 := by
      cases k with
      | zero => omega
      | succ k =>
        have hlast := hleast k (by omega)
        rw [Nat.succ_mul]
        omega
    cases hok : A.ok (t.total + genListStep + k * genListStep) with
    | false => exact .inr ⟨by simp, _, hup, hok⟩
    | true =>
      have hlt : t.total + genListStep + k * genListStep < 2 ^ 63 := by
        by_contra hge'
        rw [A.bounded _ (by omega)] at hok
        cases hok
      refine .inl ⟨_, rfl, Grown.realloc ht hroom hge hleast hlt ?_⟩
      rw [List.length_append, List.length_map, List.length_range']
      omega
  · rw [if_neg hroom]
    exact .inl ⟨t, rfl, Grown.same ht hroom⟩

/-- The copy of the item into the list with room for it. -/
theorem Grown.copy {t t' : GenBlock} {item : Bytes} (h : Grown t t' item.length) :
    t'.usedData + item.length ≤ t'.data.length ∧
      GenBlock.Fits ⟨t'.total, t'.usedData + item.length, memcpy t'.data t'.usedData item⟩ ∧
      StoredBehind t ⟨t'.total, t'.usedData + item.length, memcpy t'.data t'.usedData item⟩
        item := by
  obtain ⟨⟨hsize, hused, hbounded⟩, hroom, hsame, hsteps, hbefore⟩ := h
  have hheader : sizeofGenList = 24 := rfl
  have hoff : offData = 20 := rfl
  have hinside : t'.usedData + item.length ≤ t'.data.length := by omega
  have hcopied : (memcpy t'.data t'.usedData item).length = t'.data.length :=
    memcpy_length hinside
  refine ⟨hinside, ⟨?_, by dsimp only; omega, hbounded⟩, ?_⟩
  · dsimp only
    rw [hcopied, hsize]
  · rw [hsame] at hcopied hinside ⊢
    refine ⟨rfl, by dsimp only; omega, hsteps, ?_, ?_⟩
    · dsimp only
      rw [memcpy_take_of_le le_rfl (by omega), hbefore]
    · dsimp only
      rw [memcpy, List.append_assoc, List.drop_left' (by simp; omega), List.take_left' rfl]

/-- Where nothing is taken of the item, there is nothing in it. -/
theorem bytes_eq_nil_iff (item : BufArg) : item.bytes = [] ↔ item.n < 1 ∨ item.ptr = none := by
  cases hptr : item.ptr with
  | none => simp [BufArg.bytes, hptr]
  | some b =>
    rw [List.eq_nil_iff_length_eq_zero, BufArg.length_bytes hptr]
    simp
    omega

/-- The size that `add_item_traffic` asks for does not wrap. -/
theorem growList_item (A : Allocator) {t : GenBlock} (ht : t.Fits) {item : BufArg} {b : Bytes}
    (hb : item.ptr = some b) (hn : ¬ item.n < 1) :
    item.bytes.length < 2 ^ 31 ∧
      growList A t (((t.usedData + sizeofGenList + item.n.toNat) % 2 ^ 64 + 1) % 2 ^ 64) =
        growList A t (t.usedData + sizeofGenList + item.bytes.length + 1) := by
  have hlen := BufArg.length_bytes hb
  have hint := item.int
  have hused := ht.used
  have hbounded := ht.bounded
  have hheader : sizeofGenList = 24 := rfl
  have hsum : (t.usedData + sizeofGenList + item.n.toNat) % 2 ^ 64 =
      t.usedData + sizeofGenList + item.n.toNat := Nat.mod_eq_of_lt (by omega)
  have hsucc : (t.usedData + sizeofGenList + item.n.toNat + 1) % 2 ^ 64 =
      t.usedData + sizeofGenList + item.n.toNat + 1 := Nat.mod_eq_of_lt (by omega)
  refine ⟨by omega, ?_⟩
  rw [hsum, hsucc, hlen]

theorem Grown.used_mod {t t' : GenBlock} {n : ℕ} (h : Grown t t' n) :
    (t'.usedData + n) % 2 ^ 64 = t'.usedData + n := by
  have hroom := h.room
  have hused := h.used
  have hbounded := h.fits.bounded
  exact Nat.mod_eq_of_lt (by omega)

/-- The bytes stored behind a list pointer. -/
def storedOf (p : Option GenBlock) : Bytes := p.elim [] fun t => t.data.take t.usedData

theorem GenBlock.Fits.stored_length {t : GenBlock} (ht : t.Fits) :
    (t.data.take t.usedData).length = t.usedData := by
  obtain ⟨hsize, hused, -⟩ := ht
  have hheader : sizeofGenList = 24 := rfl
  have hoff : offData = 20 := rfl
  rw [List.length_take]
  omega

/-- `*sig` is set for the first bytes stored. -/
theorem sig_eq {p : Option GenBlock} (hp : ∀ t ∈ p, t.Fits) (sig : Option ℤ) :
    (if (p.getD GenBlock.fresh).usedData = 0 then
      setSig (if p.isNone = true then setSig sig else sig)
      else if p.isNone = true then setSig sig else sig) =
      if storedOf p = [] then setSig sig else sig := by
  cases p with
  | none => simp [GenBlock.fresh, storedOf]
  | some t =>
    have hlen := (hp t rfl).stored_length
    have hstored : t.usedData = 0 ↔ storedOf (some t) = [] := by
      rw [storedOf, Option.elim_some, ← List.length_eq_zero_iff, hlen]
    simp only [Option.getD_some, Option.isNone_some, Bool.false_eq_true, if_false, hstored]

/-- Every outcome of `add_item_traffic` on a list that fits. -/
theorem addItem_cases (A : Allocator) {p : Option GenBlock} (hp : ∀ t ∈ p, t.Fits) (item : BufArg)
    (sig : Option ℤ) :
    (item.bytes = [] ∧ addItemTrafficRaw A p item sig = some (.running p, sig, -1)) ∨
    (item.bytes ≠ [] ∧ ∃ r, addItemTrafficRaw A p item sig = some r ∧
      ((r.1 = .exited ∧ ∃ m,
          m ≤ (p.getD GenBlock.fresh).total + genListStep + item.bytes.length + 1 ∧
          A.ok m = false) ∨
        ∃ t', r = (.running (some t'), if storedOf p = [] then setSig sig else sig, 0) ∧ t'.Fits ∧
          StoredBehind (p.getD GenBlock.fresh) t' item.bytes)) := by
  unfold addItemTrafficRaw
  by_cases hnil : item.bytes = []
  · refine .inl ⟨hnil, ?_⟩
    rcases (bytes_eq_nil_iff item).mp hnil with hn | hptr
    · rw [if_pos hn]
    · simp [hptr]
  · obtain ⟨hn, hptr⟩ := not_or.mp (mt (bytes_eq_nil_iff item).mpr hnil)
    obtain ⟨b, hb⟩ := Option.ne_none_iff_exists'.mp hptr
    refine .inr ⟨hnil, ?_⟩
    by_cases hmalloc : p.isNone ∧ A.ok genListStep = false
    · refine ⟨(.exited, sig, -1), ?_, .inl ⟨rfl, genListStep, by omega, hmalloc.2⟩⟩
      simp only [hn, hb, if_false, Option.isNone_some, Bool.false_eq_true, hmalloc]
      rfl
    · have ht : (p.getD GenBlock.fresh).Fits := by
        cases p with
        | none => exact fresh_fits
        | some t => exact hp t rfl
      simp only [hn, hb, if_false, Option.isNone_some, Bool.false_eq_true, hmalloc, sig_eq hp]
      generalize p.getD GenBlock.fresh = t at ht ⊢
      obtain ⟨hn31, hask⟩ := growList_item A ht hb hn
      rw [hask]
      rcases growList_spec A ht hn31 with ⟨t', hgrow, hgrown⟩ | ⟨hgrow, hfail⟩
      · obtain ⟨hinside, hfits, hstored⟩ := hgrown.copy
        rw [hgrow]
        simp only [not_lt.mpr hinside, if_false, hgrown.used_mod]
        exact ⟨_, rfl, .inr ⟨_, rfl, hfits, hstored⟩⟩
      · rw [hgrow]
        exact ⟨_, rfl, .inl ⟨rfl, hfail⟩⟩

/-- Every outcome of a drain of a list that fits. -/
theorem getData_cases (A : Allocator) (lockErr : Bool) {t : GenBlock} (ht : t.Fits) :
    (DrainFits (.running (some t)) (.get A lockErr) ∧
      ∃ r, getDataGenListRaw A lockErr (some t) = some r ∧
        (r.1 = .running (some t) ∨ r.1 = .running (some { t with usedData := 0 }))) ∨
    (¬ DrainFits (.running (some t)) (.get A lockErr) ∧
      getDataGenListRaw A lockErr (some t) = none) := by
  obtain ⟨hsize, hused, _⟩ := ht
  have hheader : sizeofGenList = 24 := rfl
  have hoff : offData = 20 := rfl
  unfold getDataGenListRaw DrainFits
  cases lockErr with
  | true => exact .inl ⟨trivial, _, rfl, .inl rfl⟩
  | false =>
    have hle := toInt_le t.usedData
    by_cases hzero : toInt t.usedData = 0
    · exact .inl ⟨.inl hzero, _, by simp only [hzero, if_true, Bool.false_eq_true, if_false]; rfl,
        .inl rfl⟩
    · by_cases hfit : 0 < toInt t.usedData ∧ toInt t.usedData + 1 < 2 ^ 31 ∧
          A.ok ((toInt t.usedData).toNat + 1) = true
      · obtain ⟨hpos, hint, hok⟩ := hfit
        have hcopy : (toInt t.usedData).toNat ≤ t.data.length := by omega
        refine .inl ⟨.inr ⟨hpos, hint, hok⟩, (.running (some { t with usedData := 0 }),
          toInt t.usedData, some (memcpy (zeros ((toInt t.usedData).toNat + 1)) 0
            (t.data.take (toInt t.usedData).toNat))), ?_, .inr rfl⟩
        simp only [Bool.false_eq_true, if_false, hzero]
        rw [if_pos ⟨hpos, hint, hok, hcopy⟩]
      · refine .inr ⟨fun h => h.elim hzero hfit, ?_⟩
        simp only [Bool.false_eq_true, if_false, hzero]
        rw [if_neg fun h => hfit ⟨h.1, h.2.1, h.2.2.1⟩]

/-- A step from a list that fits is defined and leaves one that fits exactly when a drain finds
what it needs. -/
theorem capacityStep_iff {s : GenProc} (hs : s.Fits) (c : CapacityCall) :
    DrainFits s c ↔ ∃ s', capacityStep s c = some s' ∧ s'.Fits := by
  cases s with
  | exited => exact iff_of_true trivial ⟨.exited, rfl, trivial⟩
  | running p =>
    cases c with
    | add A item sig =>
      have hdrain : DrainFits (.running p) (.add A item sig) := by
        cases p <;> trivial
      refine iff_of_true hdrain ?_
      rcases addItem_cases A hs item sig with ⟨_, hr⟩ | ⟨_, r, hr, hout⟩
      · exact ⟨.running p, by rw [capacityStep, hr]; rfl, hs⟩
      · refine ⟨r.1, by rw [capacityStep, hr]; rfl, ?_⟩
        rcases hout with ⟨hexit, _⟩ | ⟨t', hrun, ht', _⟩
        · rw [hexit]
          trivial
        · rw [hrun]
          intro t ht
          exact Option.some.inj ht ▸ ht'
    | get A lockErr =>
      cases p with
      | none => exact iff_of_true trivial ⟨.running none, rfl, hs⟩
      | some t =>
        rcases getData_cases A lockErr (hs t rfl) with ⟨hdrain, r, hr, hout⟩ | ⟨hdrain, hr⟩
        · refine iff_of_true hdrain ⟨r.1, by rw [capacityStep, hr]; rfl, ?_⟩
          rcases hout with hsame | hempty
          · rw [hsame]
            exact hs
          · obtain ⟨hsize, hused, hbounded⟩ := hs t rfl
            rw [hempty]
            intro t' ht'
            rw [← Option.some.inj ht']
            exact ⟨hsize, lt_of_le_of_lt (by dsimp only; omega) hused, hbounded⟩
        · refine iff_of_false hdrain ?_
          rintro ⟨s', hstep, _⟩
          rw [capacityStep, hr] at hstep
          cases hstep

/-- What a defined step does. -/
theorem capacityStep_stores {s s' : GenProc} (hs : s.Fits) {c : CapacityCall}
    (h : capacityStep s c = some s') : CallStores s c s' := by
  cases s with
  | exited => exact (Option.some.inj h).symm
  | running p =>
    cases c with
    | add A item sig =>
      rw [CallStores]
      rcases addItem_cases A hs item sig with ⟨hnil, hr⟩ | ⟨hne, r, hr, hout⟩
      · rw [if_pos hnil]
        rw [capacityStep, hr] at h
        exact (Option.some.inj h).symm
      · rw [if_neg hne]
        rw [capacityStep, hr] at h
        rw [← Option.some.inj h]
        rcases hout with ⟨hexit, _⟩ | ⟨t', hrun, _, hstored⟩
        · exact .inl hexit
        · exact .inr ⟨t', congrArg Prod.fst hrun, hstored⟩
    | get A lockErr =>
      cases p with
      | none => exact .inl (Option.some.inj h).symm
      | some t =>
        rcases getData_cases A lockErr (hs t rfl) with ⟨_, r, hr, hout⟩ | ⟨_, hr⟩
        · rw [capacityStep, hr] at h
          rw [← Option.some.inj h]
          rcases hout with hsame | hempty
          · exact .inl hsame
          · exact .inr ⟨t, rfl, hempty⟩
        · rw [capacityStep, hr] at h
          cases h

/-- A drain that is defined finds what it needs. -/
theorem drainFits_of_step {s s' : GenProc} (hs : s.Fits) {c : CapacityCall}
    (h : capacityStep s c = some s') : DrainFits s c := by
  cases s with
  | exited => trivial
  | running p =>
    cases p with
    | none => cases c <;> trivial
    | some t =>
      cases c with
      | add A item sig => trivial
      | get A lockErr =>
        rcases getData_cases A lockErr (hs t rfl) with ⟨hdrain, _⟩ | ⟨_, hr⟩
        · exact hdrain
        · rw [capacityStep, hr] at h
          cases h

theorem capacityStep_fits {s s' : GenProc} (hs : s.Fits) {c : CapacityCall}
    (h : capacityStep s c = some s') : s'.Fits := by
  obtain ⟨s'', hstep, hfits⟩ := (capacityStep_iff hs c).mp (drainFits_of_step hs h)
  rw [h] at hstep
  exact Option.some.inj hstep ▸ hfits

/-! ### The list without sizes -/

/-- The two lists are there, or not, and store the same bytes. -/
structure Shows (p : Option GenBlock) (l : Option GenList) : Prop where
  null : p = none ↔ l = none
  stored : storedOf p = unreadOf l

/-- The call of the other list. -/
def CapacityCall.call : CapacityCall → GenCall
  | .add _ item sig => .add false item sig
  | .get _ lockErr => .get lockErr

section Shows

variable (junk : ℕ → UInt8) {p q : Option GenBlock} {l : Option GenList}

theorem StoredBehind.stored {t' : GenBlock} {item : Bytes}
    (h : StoredBehind (p.getD GenBlock.fresh) t' item) :
    storedOf (some t') = storedOf p ++ item := by
  have hold : (p.getD GenBlock.fresh).data.take (p.getD GenBlock.fresh).usedData = storedOf p := by
    cases p with
    | none => rfl
    | some t => rfl
  rw [storedOf, Option.elim_some, h.used, List.take_add, h.before, h.item, hold]

/-- Where `add_item_traffic` comes to its end, the list without sizes does the same. -/
theorem addItemTrafficRaw_shows {A : Allocator} (hp : ∀ t ∈ p, t.Fits) (h : Shows p l)
    {item : BufArg} {sig sig' : Option ℤ} {r : ℤ}
    (hraw : addItemTrafficRaw A p item sig = some (.running q, sig', r)) :
    ∃ l', addItemTraffic junk l item sig = (l', sig', r) ∧ Shows q l' := by
  rcases addItem_cases A hp item sig with ⟨hnil, hr⟩ | ⟨hne, out, hr, hout⟩
  · cases hr.symm.trans hraw
    exact ⟨l, addItemTraffic_keeps junk l sig hnil, h⟩
  · cases hr.symm.trans hraw
    rcases hout with ⟨hexit, -⟩ | ⟨t', hrun, -, hstored⟩
    · cases hexit
    · cases hrun
      obtain ⟨t, hadd, hunread⟩ := addItemTraffic_stores junk l sig hne
      refine ⟨some t, by rw [hadd, h.stored], by simp, ?_⟩
      rw [hstored.stored, h.stored]
      exact hunread.symm

/-- A drain hands out the same bytes. -/
theorem getDataGenListRaw_shows {A : Allocator} (hp : ∀ t ∈ p, t.Fits) (h : Shows p l)
    {lockErr : Bool} {n : ℤ} {data : Option Bytes}
    (hraw : getDataGenListRaw A lockErr p = some (.running q, n, data)) :
    ∃ l', getDataGenList lockErr l = (l', n, data) ∧ Shows q l' := by
  cases p with
  | none =>
    cases h.null.mp rfl
    cases hraw
    exact ⟨none, rfl, h⟩
  | some t =>
    obtain ⟨g, rfl⟩ : ∃ g, l = some g :=
      Option.ne_none_iff_exists'.mp fun hl => by cases h.null.mpr hl
    have hstored : t.data.take t.usedData = g.unread := h.stored
    have hused : t.usedData = g.usedData := by
      rw [← (hp t rfl).stored_length, hstored, g.length_unread]
    have hcopy : t.data.take (toInt t.usedData).toNat = g.data.take (toInt g.usedData).toNat := by
      have hle := toInt_le t.usedData
      have htake := congrArg (List.take (toInt t.usedData).toNat) hstored
      rw [GenList.unread, List.take_take, List.take_take, ← hused, Nat.min_eq_left (by omega)]
        at htake
      rw [htake, hused]
    cases lockErr with
    | true =>
      cases hraw
      exact ⟨some g, rfl, h⟩
    | false =>
      simp only [getDataGenListRaw, Bool.false_eq_true, if_false] at hraw
      simp only [getDataGenList, Bool.false_eq_true, if_false, ← hused]
      by_cases hzero : toInt t.usedData = 0
      · rw [if_pos hzero, Option.some.injEq, Prod.mk.injEq, Prod.mk.injEq] at hraw
        obtain ⟨hq, hn, hdata⟩ := hraw
        cases hq
        rw [if_pos hzero, ← hn, ← hdata]
        exact ⟨some g, rfl, h⟩
      · rw [if_neg hzero] at hraw ⊢
        split_ifs at hraw with hroom
        rw [Option.some.injEq, Prod.mk.injEq, Prod.mk.injEq] at hraw
        obtain ⟨hq, hn, hdata⟩ := hraw
        cases hq
        rw [← hn, ← hdata, hcopy, ← hused]
        exact ⟨_, rfl, by simp, rfl⟩

end Shows

/-- While the program goes on, its list stores what the list without sizes does. -/
theorem capacity_shows (junk : ℕ → UInt8) {calls : List CapacityCall} {q : Option GenBlock}
    (hr : run capacityStep (.running none) calls = some (.running q)) :
    Shows q (genRun junk (calls.map CapacityCall.call)).1 := by
  suffices hgen : ∀ (p : Option GenBlock) (l : Option GenList), (∀ t ∈ p, t.Fits) → Shows p l →
      run capacityStep (.running p) calls = some (.running q) →
      Shows q (exec (genStep junk) l (calls.map CapacityCall.call)).1 from
    hgen none none (by simp) ⟨by simp, rfl⟩ hr
  clear hr
  induction calls with
  | nil =>
    intro p l _ h hr
    cases hr
    exact h
  | cons c calls ih =>
    intro p l hp h hr
    rw [run_cons, Option.bind_eq_some_iff] at hr
    obtain ⟨s, hstep, hrest⟩ := hr
    cases s with
    | exited =>
      -- the program does not come back
      have hexited : ∀ cs, run capacityStep .exited cs = some .exited := by
        intro cs
        induction cs with
        | nil => rfl
        | cons c cs ih => exact ih
      cases (hexited calls).symm.trans hrest
    | running p' =>
      have hp' : ∀ t ∈ p', t.Fits := capacityStep_fits (s := .running p) hp hstep
      rw [List.map_cons, exec_cons]
      cases c with
      | add A item sig =>
        obtain ⟨⟨_, sig', r⟩, hraw, hp''⟩ := Option.map_eq_some_iff.mp hstep
        cases hp''
        obtain ⟨l', hadd, hshows⟩ := addItemTrafficRaw_shows junk hp h hraw
        have hnext : (genStep junk l (.add false item sig)).1 = l' := by
          simp [genStep, addItemGenList, hadd]
        rw [CapacityCall.call, hnext]
        exact ih p' l' hp' hshows hrest
      | get A lockErr =>
        obtain ⟨⟨_, n, data⟩, hraw, hp''⟩ := Option.map_eq_some_iff.mp hstep
        cases hp''
        obtain ⟨l', hget, hshows⟩ := getDataGenListRaw_shows hp h hraw
        have hnext : (genStep junk l (.get lockErr)).1 = l' := by
          simp [genStep, hget]
        rw [CapacityCall.call, hnext]
        exact ih p' l' hp' hshows hrest

/-! ### Runs -/

/-- Along the calls on a null list every step is defined, every list fits, and every call stores
as it should. -/
def CapacityHolds (calls : List CapacityCall) : Prop :=
  Stays capacityStep GenProc.Fits (.running none) calls ∧
    ∀ k c s s', calls[k]? = some c → run capacityStep (.running none) (calls.take k) = some s →
      capacityStep s c = some s' → CallStores s c s'

/-- The capacity invariant holds along a run exactly when every drain of it finds what it needs. -/
theorem capacity_holds_iff (calls : List CapacityCall) :
    CapacityHolds calls ↔ AllSteps capacityStep DrainFits (.running none) calls := by
  have hinit : GenProc.Fits (.running none) := by
    intro t ht
    cases ht
  have hstays := stays_iff_allSteps (fun s c hs => capacityStep_iff (s := s) hs c) hinit calls
  refine ⟨fun h => hstays.mp h.1, fun h => ⟨hstays.mpr h, ?_⟩⟩
  intro k c s s' _ hrun hstep
  have hkeep : ∀ s c s', GenProc.Fits s → DrainFits s c → capacityStep s c = some s' → s'.Fits :=
    fun s c s' hs _ hstep => capacityStep_fits hs hstep
  rw [← List.take_append_drop k calls] at h
  exact capacityStep_stores (h.append.1.invariant hkeep hinit hrun) hstep

/-- Memory is found for every size an object can have. -/
def Allocator.ample : Allocator where
  ok := fun n => decide (n < 2 ^ 63)
  junk := fun _ => 0
  bounded := by
    intro n hn
    simp only [decide_eq_false_iff_not]
    omega

/-- An item of `n` cleared bytes. -/
def clearedItem (n : ℕ) (h : n < 2 ^ 31) : BufArg := .ofBytes (zeros n) (by rwa [zeros_length])

theorem clearedItem_ptr (n : ℕ) (h : n < 2 ^ 31) : (clearedItem n h).ptr = some (zeros n) := by
  unfold clearedItem BufArg.ofBytes
  rfl

theorem clearedItem_length (n : ℕ) (h : n < 2 ^ 31) : (clearedItem n h).bytes.length = n := by
  rw [BufArg.length_bytes (clearedItem_ptr n h)]
  unfold clearedItem BufArg.ofBytes
  simp

/-- The list grows by what the item needs and one step at most. -/
theorem StoredBehind.total_le {t t' : GenBlock} {item : Bytes} (h : StoredBehind t t' item) :
    t'.total ≤ t.total + sizeofGenList + t.usedData + item.length + genListStep := by
  obtain ⟨k, hk, hleast⟩ := h.steps
  cases k with
  | zero =>
    rw [Nat.zero_mul] at hk
    omega
  | succ k =>
    have hlast := hleast k (by omega)
    rw [Nat.succ_mul] at hk
    omega

/-- With memory for every size an item of some bytes is stored. -/
theorem ample_add {p : Option GenBlock} (hp : ∀ t ∈ p, t.Fits) {item : BufArg}
    (hne : item.bytes ≠ []) (hsmall : (p.getD GenBlock.fresh).total ≤ 2 ^ 32)
    (hlen : item.bytes.length < 2 ^ 31) :
    ∃ t', capacityStep (.running p) (.add Allocator.ample item none) = some (.running (some t')) ∧
      t'.Fits ∧ t'.usedData = (p.getD GenBlock.fresh).usedData + item.bytes.length ∧
      t'.total ≤ (p.getD GenBlock.fresh).total + sizeofGenList +
        (p.getD GenBlock.fresh).usedData + item.bytes.length + genListStep := by
  rcases addItem_cases Allocator.ample hp item none with ⟨hnil, _⟩ | ⟨_, r, hr, hout⟩
  · exact (hne hnil).elim
  · rcases hout with ⟨_, m, hm, hfail⟩ | ⟨t', hrun, ht', hstored⟩
    · have hlarge : ¬ m < 2 ^ 63 := by simpa [Allocator.ample] using hfail
      have hstep : genListStep = 32768 := rfl
      rw [hstep] at hm
      omega
    · refine ⟨t', ?_, ht', hstored.used, hstored.total_le⟩
      rw [capacityStep, hr, Option.map_some, hrun]

theorem gib_lt : 2 ^ 30 < 2 ^ 31 := by norm_num

/-- Two items of `2 ^ 30` bytes each: the count that is drained is a negative `int`. -/
theorem drain_of_large_list :
    ¬ CapacityHolds [.add Allocator.ample (clearedItem (2 ^ 30) gib_lt) none,
      .add Allocator.ample (clearedItem (2 ^ 30) gib_lt) none,
      .get Allocator.ample false] := by
  have hlen := clearedItem_length (2 ^ 30) gib_lt
  generalize clearedItem (2 ^ 30) _ = item at hlen ⊢
  rintro ⟨⟨_, s1, hadd1, _, s2, hadd2, _, s3, hget, _⟩, _⟩
  have hne : item.bytes ≠ [] := by
    intro hnil
    rw [hnil] at hlen
    simp at hlen
  have hfresh : ((none : Option GenBlock).getD GenBlock.fresh).total = 32768 := rfl
  have hempty : ((none : Option GenBlock).getD GenBlock.fresh).usedData = 0 := rfl
  have hfits : ∀ t ∈ (none : Option GenBlock), t.Fits := by
    intro t ht
    cases ht
  obtain ⟨t1, hstep1, ht1, hused1, htotal⟩ := ample_add hfits hne (by rw [hfresh]; norm_num)
    (by rw [hlen]; norm_num)
  rw [hstep1] at hadd1
  rw [← Option.some.inj hadd1] at hadd2
  have hsmall : ((some t1).getD GenBlock.fresh).total ≤ 2 ^ 32 := by
    rw [hfresh, hempty, hlen, show genListStep = 32768 from rfl,
      show sizeofGenList = 24 from rfl] at htotal
    exact htotal.trans (by norm_num)
  have hfits1 : ∀ t ∈ some t1, t.Fits := by
    intro t ht
    exact Option.some.inj ht ▸ ht1
  obtain ⟨t2, hstep2, ht2, hused2, _⟩ := ample_add hfits1 hne hsmall (by rw [hlen]; norm_num)
  rw [hstep2] at hadd2
  rw [← Option.some.inj hadd2] at hget
  rw [Option.getD_some, hused1, hempty, hlen] at hused2
  have hneg : toInt t2.usedData = -2147483648 := by
    have hvalue : t2.usedData = 2147483648 := by omega
    have hge : 2 ^ 31 ≤ t2.usedData := by omega
    have hlt : t2.usedData < 2 ^ 32 := by omega
    rw [toInt_of_ge hge hlt, hvalue]
    norm_num
  rcases getData_cases Allocator.ample false ht2 with ⟨hdrain, _⟩ | ⟨_, hnone⟩
  · simp only [DrainFits, hneg] at hdrain
    omega
  · rw [capacityStep, hnone] at hget
    cases hget

end MemoryLeak.Notify
