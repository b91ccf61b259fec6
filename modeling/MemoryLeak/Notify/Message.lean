import MemoryLeak.CBytes
import Mathlib.Data.Int.Basic
import Mathlib.Tactic.Ring
import Mathlib.Tactic.NormNum

/-!
# Messages of the notification system

Constants, the packed `MSG_COMMON` header and `hash_func`. Every field of the
header is a byte or an array of bytes, so it has no padding and each field is
read at a fixed offset from the message pointer. A string field is the memory
from its first byte on: `strlen` does not stop at the end of the field.
-/
namespace MemoryLeak.Notify
open MemoryLeak.CBytes

@[simp] abbrev lenDevid : ℕ := 40
@[simp] abbrev lenU64int : ℕ := 8
@[simp] abbrev lenU16int : ℕ := 2
@[simp] abbrev maxMsg : ℕ := 1200
@[simp] abbrev aesBytes : ℕ := 32
@[simp] abbrev aesIvBytes : ℕ := 16
@[simp] abbrev hashSize : ℕ := 10001
@[simp] abbrev sizeofMsgCommon : ℕ := 100

/-! ### MSG_ENUM, MSG_ROUTE, RSA_AES -/

abbrev msgReg : UInt8 := 0
abbrev msgTra : UInt8 := 1
abbrev msgNtf : UInt8 := 2
abbrev msgGetAes : UInt8 := 4

abbrev gNtfCli : UInt8 := 0
abbrev gCliNtf : UInt8 := 2
abbrev gCliSrv : UInt8 := 4
abbrev fSrvCli : UInt8 := 5
abbrev gNtfSrv : UInt8 := 6
abbrev fSrvNtf : UInt8 := 7

abbrev encryptNon : UInt8 := 0
abbrev encryptSrvPub : UInt8 := 1
abbrev encryptCliPub : UInt8 := 2
abbrev encryptAes : UInt8 := 3

/-! ### MSG_COMMON -/

@[simp] abbrev offIfroute : ℕ := 1
@[simp] abbrev offDevId : ℕ := 2
@[simp] abbrev offNtfId : ℕ := 42
@[simp] abbrev offSecond : ℕ := 82
@[simp] abbrev offNano : ℕ := 90
@[simp] abbrev offLen : ℕ := 98

def msgType (m : Bytes) : UInt8 := byteAt m 0
def ifroute (m : Bytes) : UInt8 := byteAt m offIfroute
/-- `com.dev_id` as a `char *`. -/
def devId (m : Bytes) : Bytes := m.drop offDevId
/-- `com.ntf_id` as a `char *`. -/
def ntfId (m : Bytes) : Bytes := m.drop offNtfId
def second (m : Bytes) : Bytes := (m.drop offSecond).take lenU64int
def nano (m : Bytes) : Bytes := (m.drop offNano).take lenU64int
def msgLen (m : Bytes) : Bytes := (m.drop offLen).take lenU16int
/-- `MSG_DATA.data`. -/
def msgData (m : Bytes) : Bytes := m.drop sizeofMsgCommon

def setIfroute (m : Bytes) (r : UInt8) : Bytes := memcpy m offIfroute [r]
def setLen (m : Bytes) (len : Bytes) : Bytes := memcpy m offLen len

/-- A string field of `n` bytes filled from `s` and cleared behind it. -/
def field (n : ℕ) (s : Bytes) : Bytes := (s ++ zeros n).take n

/-- A header with the given type, route and ids, all other fields cleared. -/
def header (type route : UInt8) (dev ntf : Bytes) : Bytes :=
  type :: route :: (field lenDevid dev ++ field lenDevid ntf ++ zeros 18)

/-- The text of the `dev_id` field: what `strncmp(.., LEN_DEVID)` compares. -/
def idKey (id : Bytes) : Bytes := cstr lenDevid id

/-- The id is NUL-terminated inside its field. -/
def Terminated (id : Bytes) : Prop := strlen id < lenDevid

instance (id : Bytes) : Decidable (Terminated id) := inferInstanceAs (Decidable (_ < _))

theorem strncmp_id_iff (a b : Bytes) : strncmp lenDevid a b = 0 ↔ idKey a = idKey b :=
  strncmp_eq_zero_iff lenDevid a b

/-- Fields with the same text are both terminated or both not. -/
theorem terminated_iff_of_idKey_eq {a b : Bytes} (h : idKey a = idKey b) :
    Terminated a ↔ Terminated b := by
  simp only [Terminated, ← cstr_length_lt_iff]
  unfold idKey at h
  rw [h]

/-! ### Integer fields -/

/-- The loop of `uintW_2_arr`: byte `i` is `(n >> (i*8)) & 0xFF`. -/
def uintToArr (n sz : ℕ) : Bytes :=
  (List.range sz).map fun i => UInt8.ofNat ((n >>> (i * 8)) &&& 0xFF)

/-- The loop of `arr_2_uintW` on the first `sz` bytes, in a `w`-bit result. -/
def arrToUint (w : ℕ) (arr : Bytes) : ℕ → ℕ
  | 0 => 0
  | i + 1 => arrToUint w arr i ||| (((byteAt arr i).toNat <<< (i * 8)) % 2 ^ w)

def uint16ToArr (n : UInt16) (sz : ℕ) : Bytes := uintToArr n.toNat sz
def uint64ToArr (n : UInt64) (sz : ℕ) : Bytes := uintToArr n.toNat sz
def arrToUint16 (arr : Bytes) (sz : ℕ) : ℕ := arrToUint 16 arr sz
def arrToUint64 (arr : Bytes) (sz : ℕ) : ℕ := arrToUint 64 arr sz

@[simp] theorem uintToArr_length (n sz : ℕ) : (uintToArr n sz).length = sz := by
  simp [uintToArr]

@[simp] theorem uint16ToArr_length (n : UInt16) (sz : ℕ) : (uint16ToArr n sz).length = sz := by
  simp [uint16ToArr]

@[simp] theorem uint64ToArr_length (n : UInt64) (sz : ℕ) : (uint64ToArr n sz).length = sz := by
  simp [uint64ToArr]

/-- `struct timespec`, its fields as the `uint64_t` arguments they become. -/
structure Timespec where
  tvSec : UInt64
  tvNsec : UInt64
  deriving DecidableEq, Repr

/-- `put_time_to_msg`. Each `memset` is overwritten in full by the write after it. -/
def putTimeToMsg (m : Bytes) : Option Timespec → Bytes
  | none => m
  | some t =>
    memcpy (memcpy m offSecond (uint64ToArr t.tvSec lenU64int))
      offNano (uint64ToArr t.tvNsec lenU64int)

theorem putTimeToMsg_length {m : Bytes} (h : sizeofMsgCommon ≤ m.length) (t : Option Timespec) :
    (putTimeToMsg m t).length = m.length := by
  cases t with
  | none => rfl
  | some t =>
    have h1 : (memcpy m offSecond (uint64ToArr t.tvSec lenU64int)).length = m.length :=
      memcpy_length (by simp at *; omega)
    rw [putTimeToMsg, memcpy_length (by rw [h1]; simp at *; omega), h1]

/-- The time fields stand behind both ids. -/
theorem putTimeToMsg_take {m : Bytes} (h : sizeofMsgCommon ≤ m.length) (t : Option Timespec) :
    (putTimeToMsg m t).take offSecond = m.take offSecond := by
  cases t with
  | none => rfl
  | some t =>
    have h1 : (memcpy m offSecond (uint64ToArr t.tvSec lenU64int)).length = m.length :=
      memcpy_length (by simp at *; omega)
    rw [putTimeToMsg, memcpy_take_of_le (by decide) (by rw [h1]; simp at *; omega),
      memcpy_take_of_le le_rfl (by simp at *; omega)]

/-- What stands before `second` decides the text of `dev_id`. -/
theorem idKey_devId_congr {m m' : Bytes} (h : m.take offSecond = m'.take offSecond) :
    idKey (devId m) = idKey (devId m') := by
  have hk : ∀ x : Bytes, idKey (devId x) = cstr lenDevid ((x.take offSecond).drop offDevId) := by
    intro x
    rw [List.drop_take, cstr_take (by decide)]
    rfl
  rw [hk m, hk m', h]

/-! ### hash_func -/

/-- The value of a `char`, which is signed. -/
def charVal (c : UInt8) : ℤ := if c.toNat < 128 then c.toNat else (c.toNat : ℤ) - 256

/-- The inner loop: `k *= 71; k %= HASH_SIZE`, `i` times from 1. -/
def hashPow : ℕ → ℕ
  | 0 => 1
  | j + 1 => hashPow j * 71 % hashSize

/-- `(id[i] * k) % HASH_SIZE`: the char is converted to `unsigned long long`
before the product. -/
def hashTerm (c : UInt8) (i : ℕ) : ℕ := ((charVal c * hashPow i) % 2 ^ 64).toNat % hashSize

/-- The outer loop; `res` is an `unsigned int`. -/
def hashSum (id : Bytes) : ℕ → ℕ
  | 0 => 0
  | i + 1 => (hashSum id i + hashTerm (byteAt id i) i) % 2 ^ 32

def hashFunc (id : Bytes) (n : ℕ) : ℕ := hashSum id n % hashSize

/-- The bucket of an id: `hash_func(id, MIN(MAX_MSG, strlen(id)))`, as
`reg_to_table`, `hl_track_msg` and `send_to_dst` compute it. -/
def hashId (id : Bytes) : ℕ := hashFunc id (min maxMsg (strlen id))

theorem hashFunc_lt (id : Bytes) (n : ℕ) : hashFunc id n < hashSize :=
  Nat.mod_lt _ (by decide)

theorem hashTerm_lt (c : UInt8) (i : ℕ) : hashTerm c i < hashSize := Nat.mod_lt _ (by decide)

/-- The 32-bit accumulator does not wrap on strings of message length. -/
theorem hashSum_le (id : Bytes) {n : ℕ} (hn : n ≤ maxMsg) : hashSum id n ≤ n * hashSize := by
  induction n with
  | zero => simp [hashSum]
  | succ n ih =>
    have h := ih (by omega)
    have ht := hashTerm_lt (byteAt id n) n
    have hmod := Nat.mod_le (hashSum id n + hashTerm (byteAt id n) n) (2 ^ 32)
    rw [hashSum]
    simp only [hashSize] at *
    omega

theorem hashSum_succ (id : Bytes) {n : ℕ} (hn : n < maxMsg) :
    hashSum id (n + 1) = hashSum id n + hashTerm (byteAt id n) n := by
  have h := hashSum_le id hn.le
  have ht := hashTerm_lt (byteAt id n) n
  rw [hashSum]
  apply Nat.mod_eq_of_lt
  simp only [hashSize, maxMsg] at *
  omega

/-- One more byte adds its term. -/
theorem hashFunc_succ (id : Bytes) {n : ℕ} (hn : n < maxMsg) :
    hashFunc id (n + 1) = (hashFunc id n + hashTerm (byteAt id n) n) % hashSize := by
  rw [hashFunc, hashSum_succ id hn, hashFunc, Nat.mod_add_mod]

/-- `hash_func` reads the first `n` bytes only. -/
theorem hashFunc_congr {a b : Bytes} {n : ℕ} (h : ∀ i < n, byteAt a i = byteAt b i) :
    hashFunc a n = hashFunc b n := by
  have hs : ∀ k ≤ n, hashSum a k = hashSum b k := by
    intro k hk
    induction k with
    | zero => rfl
    | succ k ih => rw [hashSum, hashSum, ih (by omega), h k (by omega)]
  rw [hashFunc, hashFunc, hs n le_rfl]

theorem hashFunc_eq_of_take {a b : Bytes} {n : ℕ} (h : a.take n = b.take n) :
    hashFunc a n = hashFunc b n := by
  apply hashFunc_congr
  intro i hi
  rw [← byteAt_take a hi, h, byteAt_take b hi]

/-- Inside a terminated field the bucket is a function of the text. -/
theorem hashId_of_terminated {id : Bytes} (h : Terminated id) :
    hashId id = hashFunc (idKey id) (idKey id).length := by
  have hlen : (idKey id).length = strlen id := cstr_length_of_strlen_lt h
  have hmin : min maxMsg (strlen id) = strlen id := by
    have : strlen id < lenDevid := h
    simp only [lenDevid, maxMsg] at *
    omega
  rw [hashId, hmin, hlen]
  apply hashFunc_congr
  intro i hi
  have hpre : idKey id <+: id :=
    (List.takeWhile_prefix _).trans (List.take_prefix _ _)
  obtain ⟨rest, hrest⟩ := hpre
  rw [← hrest, byteAt_append_left _ _ (by omega), hrest]

theorem hashId_eq_of_idKey_eq {a b : Bytes} (ha : Terminated a) (h : idKey a = idKey b) :
    hashId a = hashId b := by
  rw [hashId_of_terminated ha, hashId_of_terminated ((terminated_iff_of_idKey_eq h).mp ha), h]

end MemoryLeak.Notify
