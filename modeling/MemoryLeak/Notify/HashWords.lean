import MemoryLeak.Notify.Message
import MemoryLeak.Loops
import Mathlib.Algebra.BigOperators.Group.Finset.Basic
import Mathlib.Data.Int.ModEq

/-!
# The hash in machine words

`hash_func` with its 64-bit power and its 32-bit sum. The power and the sum never wrap on a string
of message length; a product wraps for a byte of 128 or more only, which is a negative `char`.
-/
namespace MemoryLeak.Notify.HashWords
open MemoryLeak.CBytes MemoryLeak.Loops

/-- `id[i]`, a signed `char`, as an operand of a product of type `unsigned long long`. -/
def charArg (c : UInt8) : UInt64 := ⟨c.toBitVec.signExtend 64⟩

/-- `k *= 71; k %= HASH_SIZE`. -/
def powTurn (k : UInt64) : UInt64 := k * 71 % 10001

/-- The inner loop, from `k = 1`. -/
def power (i : ℕ) : UInt64 := (List.range' 0 i).foldl (fun k _ => powTurn k) 1

/-- `(id[i] * k) % HASH_SIZE`. -/
def term (c : UInt8) (i : ℕ) : UInt64 := charArg c * power i % 10001

def sumTurn (id : Bytes) (res : UInt32) (i : ℕ) : Option UInt32 :=
  (id[i]?).map fun c => (res.toUInt64 + term c i).toUInt32

/-- `res` after the outer loop. -/
def hashSum (id : Bytes) (n : ℕ) : Option UInt32 := (List.range' 0 n).foldlM (sumTurn id) 0

def hashFunc (id : Bytes) (n : ℕ) : Option UInt32 := (hashSum id n).map (· % 10001)

/-! ### The words and their numbers -/

theorem hashPow_lt (i : ℕ) : hashPow i < hashSize := by
  cases i with
  | zero => decide
  | succ j => exact Nat.mod_lt _ (by decide)

theorem power_toNat (i : ℕ) : (power i).toNat = hashPow i := by
  induction i with
  | zero => rfl
  | succ i ih =>
    have hlt := hashPow_lt i
    have hstep : power (i + 1) = powTurn (power i) := by
      rw [power, List.range'_concat, List.foldl_append]
      rfl
    have hword : (power i).toNat * 71 < 2 ^ 64 := by
      rw [ih]
      simp only [hashSize] at hlt
      omega
    rw [hstep, powTurn, UInt64.toNat_mod, UInt64.toNat_mul, hashPow, ← ih]
    exact congrArg (· % hashSize) (Nat.mod_eq_of_lt hword)

theorem charArg_toNat (c : UInt8) : (charArg c).toNat = (charVal c % 2 ^ 64).toNat := by
  have hval : c.toBitVec.toInt = charVal c := by
    rw [BitVec.toInt_eq_toNat_cond, charVal]
    change (if 2 * c.toNat < 2 ^ 8 then (c.toNat : ℤ) else (c.toNat : ℤ) - (2 ^ 8 : ℕ)) = _
    split_ifs <;> omega
  change (BitVec.ofInt 64 c.toBitVec.toInt).toNat = _
  rw [BitVec.toNat_ofInt, hval]
  rfl

theorem term_toNat (c : UInt8) (i : ℕ) : (term c i).toNat = hashTerm c i := by
  have hnonneg : 0 ≤ charVal c % 2 ^ 64 := Int.emod_nonneg _ (by decide)
  have hproduct : (charVal c % 2 ^ 64).toNat * hashPow i % 2 ^ 64 =
      (charVal c * hashPow i % 2 ^ 64).toNat := by
    apply Int.natCast_inj.mp
    rw [Int.natCast_emod, Int.natCast_mul, Int.toNat_of_nonneg hnonneg,
      Int.toNat_of_nonneg (Int.emod_nonneg _ (by decide))]
    exact (Int.mod_modEq (charVal c) (2 ^ 64)).mul_right (hashPow i)
  rw [term, UInt64.toNat_mod, UInt64.toNat_mul, charArg_toNat, power_toNat, hproduct, hashTerm]
  rfl

theorem hashSum_eq {id : Bytes} {n : ℕ} (hn : n ≤ id.length) :
    hashSum id n = some (UInt32.ofNat (Notify.hashSum id n)) := by
  apply foldlM_counted fun i => UInt32.ofNat (Notify.hashSum id i)
  intro i hi
  rw [sumTurn, Nat.zero_add, getElem?_eq_byteAt (show i < id.length by omega), Option.map_some]
  apply congrArg some
  apply UInt32.toNat_inj.mp
  rw [UInt64.toNat_toUInt32, UInt64.toNat_add, UInt32.toNat_toUInt64, term_toNat,
    UInt32.toNat_ofNat', UInt32.toNat_ofNat', Notify.hashSum]
  omega

theorem hashSum_lt (id : Bytes) (n : ℕ) : Notify.hashSum id n < 2 ^ 32 := by
  cases n with
  | zero => exact Nat.two_pow_pos 32
  | succ i => exact Nat.mod_lt _ (by decide)

theorem hashFunc_eq {id : Bytes} {n : ℕ} (hn : n ≤ id.length) :
    ∃ h, hashFunc id n = some h ∧ h.toNat = Notify.hashFunc id n := by
  refine ⟨UInt32.ofNat (Notify.hashSum id n) % 10001, ?_, ?_⟩
  · rw [hashFunc, hashSum_eq hn, Option.map_some]
  · rw [UInt32.toNat_mod, UInt32.toNat_ofNat', Nat.mod_eq_of_lt (hashSum_lt id n)]
    rfl

/-! ### The value -/

/-- No product, no power and no sum of the loops is cut to its word. -/
structure NoWrap (id : Bytes) (n : ℕ) : Prop where
  power_fits : ∀ i < n, ∀ j < i, (power j).toNat * 71 < 2 ^ 64
  product_fits : ∀ i < n, ∀ c ∈ id[i]?, (charArg c).toNat * (power i).toNat < 2 ^ 64
  sum_fits : ∀ i < n, ∀ c ∈ id[i]?, ∃ res, hashSum id i = some res ∧
    res.toNat + (term c i).toNat < 2 ^ 32

theorem hashPow_modEq (i : ℕ) : hashPow i ≡ 71 ^ i [MOD hashSize] := by
  induction i with
  | zero => rfl
  | succ i ih =>
    calc hashPow (i + 1) ≡ hashPow i * 71 [MOD hashSize] := Nat.mod_modEq _ _
      _ ≡ 71 ^ i * 71 [MOD hashSize] := ih.mul_right 71
      _ = 71 ^ (i + 1) := (Nat.pow_succ ..).symm

section
variable {c : UInt8} (hc : c.toNat < 128)
include hc

theorem charArg_of_lt : (charArg c).toNat = c.toNat := by
  rw [charArg_toNat, charVal, if_pos hc]
  omega

theorem product_lt (i : ℕ) : (charArg c).toNat * (power i).toNat < 2 ^ 64 := by
  have hlt := hashPow_lt i
  calc (charArg c).toNat * (power i).toNat ≤ 128 * hashSize := by
        rw [charArg_of_lt hc, power_toNat]
        exact Nat.mul_le_mul hc.le hlt.le
    _ < 2 ^ 64 := by decide

theorem term_modEq (i : ℕ) : hashTerm c i ≡ c.toNat * 71 ^ i [MOD hashSize] := by
  have hterm : (term c i).toNat = c.toNat * hashPow i % hashSize := by
    rw [term, UInt64.toNat_mod, UInt64.toNat_mul, Nat.mod_eq_of_lt (product_lt hc i),
      charArg_of_lt hc, power_toNat]
    rfl
  rw [← term_toNat, hterm]
  exact (Nat.mod_modEq _ _).trans ((hashPow_modEq i).mul_left c.toNat)

end

/-- The sum of the reduced terms. -/
theorem hashSum_modEq {id : Bytes} {n : ℕ} (hn : n ≤ maxMsg)
    (hsmall : ∀ i < n, (byteAt id i).toNat < 128) :
    Notify.hashSum id n ≡ ∑ i ∈ Finset.range n, (byteAt id i).toNat * 71 ^ i [MOD hashSize] := by
  induction n with
  | zero => rfl
  | succ n ih =>
    have hsum := ih (by omega) fun i hi => hsmall i (by omega)
    rw [hashSum_succ id (by omega), Finset.sum_range_succ]
    exact hsum.add (term_modEq (hsmall n (by omega)) n)

/-- Only a negative byte makes a product wrap. -/
theorem noWrap {id : Bytes} {n : ℕ} (hn : n ≤ maxMsg) (hid : n ≤ id.length)
    (hsmall : ∀ i < n, (byteAt id i).toNat < 128) : NoWrap id n := by
  constructor
  · intro i hi j hj
    have hlt := hashPow_lt j
    rw [power_toNat]
    simp only [hashSize] at hlt
    omega
  · intro i hi c hc
    rw [getElem?_eq_byteAt (show i < id.length by omega)] at hc
    cases hc
    exact product_lt (hsmall i hi) i
  · intro i hi c hc
    refine ⟨_, hashSum_eq (by omega), ?_⟩
    have hle := hashSum_le id (show i ≤ maxMsg by omega)
    have hterm := hashTerm_lt c i
    rw [UInt32.toNat_ofNat', Nat.mod_eq_of_lt (hashSum_lt id i), term_toNat]
    simp only [hashSize, maxMsg] at *
    omega

/-- The hash of a string of message length is below `HASH_SIZE`, and for bytes below 128 it is
their polynomial at 71. -/
theorem hash_value (id : Bytes) (n : ℕ) (hn : n ≤ maxMsg) (hid : n ≤ id.length) :
    ∃ h, hashFunc id n = some h ∧ h.toNat < hashSize ∧
      ((∀ c ∈ id.take n, c.toNat < 128) →
        h.toNat = (∑ i ∈ Finset.range n, (byteAt id i).toNat * 71 ^ i) % hashSize ∧
          NoWrap id n) := by
  obtain ⟨h, hrun, hval⟩ := hashFunc_eq hid
  refine ⟨h, hrun, ?_, ?_⟩
  · rw [hval]
    exact Notify.hashFunc_lt id n
  · intro hbytes
    have hsmall : ∀ i < n, (byteAt id i).toNat < 128 := by
      intro i hi
      have hlen : i < id.length := by omega
      have hmem : id[i] ∈ id.take n := List.mem_take_iff_getElem.mpr ⟨i, by omega, rfl⟩
      rw [byteAt_eq_getElem hlen]
      exact hbytes _ hmem
    refine ⟨?_, noWrap hn hid hsmall⟩
    rw [hval]
    exact hashSum_modEq hn hsmall

/-- The id `d1`: `100 + 49 * 71`. -/
theorem hash_value_sample : ∃ h, hashFunc [100, 49, 0] 2 = some h ∧ h.toNat = 3579 ∧
    NoWrap [100, 49, 0] 2 := by
  obtain ⟨h, hrun, -, hvalue⟩ := hash_value [100, 49, 0] 2 (by decide) (by decide)
  obtain ⟨hsum, hwrap⟩ := hvalue (by simp)
  exact ⟨h, hrun, hsum.trans (by decide), hwrap⟩

end MemoryLeak.Notify.HashWords
