import MemoryLeak.Notify.Peers
import MemoryLeak.Layout
import MemoryLeak.Loops

/-!
# Little-endian codecs

`uintW_2_arr` and `arr_2_uintW` on the caller's memory: an index outside of the array and a shift
by the width of the promoted operand or more are no result.
-/
namespace MemoryLeak.Notify.Codecs
open MemoryLeak.CBytes MemoryLeak.Layout MemoryLeak.Loops

/-! ### The six functions -/

/-- A shift of an operand of `p` bits. -/
def shifted {p : ℕ} (shift : BitVec p → ℕ → BitVec p) (x : BitVec p) (s : ℕ) : Option (BitVec p) :=
  if s < p then some (shift x s) else none

def putByte (arr : Bytes) (i : ℕ) (c : UInt8) : Option Bytes :=
  if i < arr.length then some (arr.set i c) else none

/-- `arr[i] = (n >> (i*8)) & 0xFF`. -/
def encodeTurn {p : ℕ} (shr : BitVec p → ℕ → BitVec p) (n : BitVec p) (arr : Bytes) (i : ℕ) :
    Option Bytes := do
  let x ← shifted shr n (i * 8)
  putByte arr i (UInt8.ofNat (x &&& 0xFF).toNat)

/-- `uintW_2_arr` for an operand `n` that is promoted to `p` bits and shifted by `shr`. -/
def encode {p : ℕ} (shr : BitVec p → ℕ → BitVec p) (arr : Option Bytes) (n : BitVec p) (sz : ℕ) :
    Option (Option Bytes) :=
  match arr with
  | none => some none
  | some a => ((List.range' 0 sz).foldlM (encodeTurn shr n) a).map some

def uint64ToArr (arr : Option Bytes) (n : BitVec 64) (sz : ℕ) : Option (Option Bytes) :=
  encode BitVec.ushiftRight arr n sz

def uint32ToArr (arr : Option Bytes) (n : BitVec 32) (sz : ℕ) : Option (Option Bytes) :=
  encode BitVec.ushiftRight arr n sz

/-- `n` is promoted to `int`. -/
def uint16ToArr (arr : Option Bytes) (n : BitVec 16) (sz : ℕ) : Option (Option Bytes) :=
  encode BitVec.sshiftRight arr (n.setWidth 32) sz

/-- `t = arr[i]; (*n) |= (t << (i*8))`, where `t` has `p` bits. -/
def decodeTurn {w : ℕ} (p : ℕ) (arr : Bytes) (n : BitVec w) (i : ℕ) : Option (BitVec w) := do
  let c ← arr[i]?
  let x ← shifted BitVec.shiftLeft (BitVec.ofNat p c.toNat) (i * 8)
  some ((n.setWidth p ||| x).setWidth w)

/-- `arr_2_uintW` for a result of `w` bits and a `t` of `p` bits. -/
def decode {w : ℕ} (p : ℕ) (arr : Option Bytes) (n : Option (BitVec w)) (sz : ℕ) :
    Option (Option (BitVec w)) :=
  match arr, n with
  | some a, some _ => ((List.range' 0 sz).foldlM (decodeTurn p a) 0#w).map some
  | _, n => some n

def arrToUint64 (arr : Option Bytes) (n : Option (BitVec 64)) (sz : ℕ) :
    Option (Option (BitVec 64)) :=
  decode 64 arr n sz

def arrToUint32 (arr : Option Bytes) (n : Option (BitVec 32)) (sz : ℕ) :
    Option (Option (BitVec 32)) :=
  decode 32 arr n sz

/-- Its `t` is a `uint32_t`. -/
def arrToUint16 (arr : Option Bytes) (n : Option (BitVec 16)) (sz : ℕ) :
    Option (Option (BitVec 16)) :=
  decode 32 arr n sz

/-! ### The loops -/

/-- The bytes that the loop writes are the lowest of the number. -/
theorem uintToArr_eq (n sz : ℕ) : uintToArr n sz = leBytes sz n := by
  induction sz generalizing n with
  | zero => rfl
  | succ sz ih =>
    have hlow : UInt8.ofNat (n &&& 0xFF) = UInt8.ofNat n := by
      apply UInt8.toNat_inj.mp
      rw [UInt8.toNat_ofNat', UInt8.toNat_ofNat', Nat.and_two_pow_sub_one_eq_mod n 8, Nat.mod_mod]
    have hshift : ∀ i, n >>> ((i + 1) * 8) = (n / 256) >>> (i * 8) := fun i => by
      rw [Nat.add_mul, Nat.one_mul, Nat.add_comm, Nat.shiftRight_add]
      exact congrArg (· >>> (i * 8)) (Nat.shiftRight_eq_div_pow n 8)
    have ih' := ih (n / 256)
    rw [uintToArr] at ih'
    rw [uintToArr, List.range_succ_eq_map, List.map_cons, List.map_map, leBytes, ← ih',
      Nat.zero_mul, Nat.shiftRight_zero, hlow]
    apply congrArg (UInt8.ofNat n :: ·)
    apply List.map_congr_left
    intro i _
    rw [Function.comp_apply, hshift]

/-- One more byte of the number. -/
theorem uintToArr_succ (n i : ℕ) :
    uintToArr n (i + 1) = uintToArr n i ++ [UInt8.ofNat ((n >>> (i * 8)) &&& 0xFF)] := by
  rw [uintToArr, List.range_succ, List.map_append]
  rfl

theorem encode_eq {p : ℕ} {shr : BitVec p → ℕ → BitVec p} {n : BitVec p}
    (hshr : ∀ s, (shr n s).toNat = n.toNat >>> s) {a : Bytes} {sz : ℕ} (hp : 8 ≤ p)
    (hsz : 8 * sz ≤ p) (ha : sz ≤ a.length) :
    encode shr (some a) n sz = some (some (leBytes sz n.toNat ++ a.drop sz)) := by
  have hloop : (List.range' 0 sz).foldlM (encodeTurn shr n) a =
      some (uintToArr n.toNat sz ++ a.drop sz) := by
    apply foldlM_counted (fun i => uintToArr n.toNat i ++ a.drop i)
    intro i hi
    have hmask : (0xFF : BitVec p).toNat = 0xFF := by
      have hle : 2 ^ 8 ≤ 2 ^ p := Nat.pow_le_pow_right (by decide) hp
      exact Nat.mod_eq_of_lt (lt_of_lt_of_le (by decide) hle)
    have hlen : i < (uintToArr n.toNat i ++ a.drop i).length := by
      rw [List.length_append, uintToArr_length, List.length_drop]
      omega
    have hset : (uintToArr n.toNat i ++ a.drop i).set i
        (UInt8.ofNat ((n.toNat >>> (i * 8)) &&& 0xFF)) =
        uintToArr n.toNat (i + 1) ++ a.drop (i + 1) := by
      rw [List.set_append_right _ _ (by rw [uintToArr_length]), uintToArr_length, Nat.sub_self,
        List.drop_eq_getElem_cons (show i < a.length by omega), List.set_cons_zero, uintToArr_succ,
        List.append_assoc]
      rfl
    simp only [encodeTurn, shifted, putByte, Nat.zero_add, if_pos (show i * 8 < p by omega), bind,
      Option.bind_some, if_pos hlen, BitVec.toNat_and, hshr, hmask, hset]
  rw [encode, hloop, Option.map_some, uintToArr_eq]

/-- One more byte above those that were read. -/
theorem or_shifted {v c w i : ℕ} (hv : v < 256 ^ i) (hc : c < 256) (hw : 8 * (i + 1) ≤ w) :
    v ||| c <<< (i * 8) = v + 256 ^ i * c ∧ c <<< (i * 8) < 2 ^ w ∧ v < 2 ^ w ∧
      v + 256 ^ i * c < 2 ^ w := by
  have hpow := pow_256 i
  have hshift : c <<< (i * 8) = 256 ^ i * c := by
    rw [Nat.shiftLeft_eq, Nat.mul_comm i, hpow, Nat.mul_comm]
  have hlt : v + 256 ^ i * c < 2 ^ w := by
    calc v + 256 ^ i * c < 256 ^ i * (c + 1) := by
          rw [Nat.mul_succ]
          omega
      _ ≤ 256 ^ i * 2 ^ 8 := Nat.mul_le_mul_left _ hc
      _ = 2 ^ (8 * (i + 1)) := by rw [hpow, ← Nat.pow_add, Nat.mul_succ]
      _ ≤ 2 ^ w := Nat.pow_le_pow_right (by decide) hw
  refine ⟨?_, by omega, by omega, hlt⟩
  rw [hshift, hpow, Nat.or_comm, Nat.add_comm]
  exact (Nat.two_pow_add_eq_or_of_lt (hpow ▸ hv) c).symm

theorem or_byte {w p v c i : ℕ} (hwp : w ≤ p) (hv : v < 256 ^ i) (hc : c < 256)
    (hw : 8 * (i + 1) ≤ w) :
    ((BitVec.ofNat w v).setWidth p ||| BitVec.ofNat p c <<< (i * 8)).setWidth w =
      BitVec.ofNat w (v + 256 ^ i * c) := by
  obtain ⟨hor, hshift, hlow, -⟩ := or_shifted hv hc hw
  have hwide : 2 ^ w ≤ 2 ^ p := Nat.pow_le_pow_right (by decide) hwp
  have hbyte : 2 ^ 8 ≤ 2 ^ p := Nat.pow_le_pow_right (by decide) (by omega)
  apply BitVec.eq_of_toNat_eq
  simp only [BitVec.toNat_setWidth, BitVec.toNat_or, BitVec.toNat_ofNat, BitVec.toNat_shiftLeft]
  rw [Nat.mod_eq_of_lt hlow, Nat.mod_eq_of_lt (hlow.trans_le hwide),
    Nat.mod_eq_of_lt (hc.trans_le hbyte), Nat.mod_eq_of_lt (hshift.trans_le hwide), hor]

theorem decode_eq {w p : ℕ} (hwp : w ≤ p) {a : Bytes} {sz : ℕ} (hsz : 8 * sz ≤ w)
    (ha : sz ≤ a.length) (old : BitVec w) :
    decode p (some a) (some old) sz = some (some (BitVec.ofNat w (leVal (a.take sz)))) := by
  have hloop : (List.range' 0 sz).foldlM (decodeTurn p a) 0#w =
      some (BitVec.ofNat w (leVal (a.take sz))) := by
    apply foldlM_counted (fun i => BitVec.ofNat w (leVal (a.take i)))
    intro i hi
    have hlen : i < a.length := by omega
    have hshift : i * 8 < p := by omega
    simp only [decodeTurn, shifted, Nat.zero_add, List.getElem?_eq_getElem hlen, bind,
      Option.bind_some, if_pos hshift, leVal_take_succ hlen]
    exact congrArg some (or_byte hwp (leVal_take_lt hlen.le) (a[i]).toNat_lt (by omega))
  rw [decode, hloop, Option.map_some]

/-! ### Round trips -/

/-- `dec` reads what `enc` writes, and `enc` writes back what `dec` read. -/
structure RoundTrips (w : ℕ) (enc : Option Bytes → BitVec w → ℕ → Option (Option Bytes))
    (dec : Option Bytes → Option (BitVec w) → ℕ → Option (Option (BitVec w))) : Prop where
  decode_encode : ∀ (arr : Bytes) (n old : BitVec w) (sz : ℕ), sz ≤ w / 8 → sz ≤ arr.length →
    ∃ arr' v, enc (some arr) n sz = some (some arr') ∧ arr'.drop sz = arr.drop sz ∧
      dec (some arr') (some old) sz = some (some v) ∧ v.toNat = n.toNat % 2 ^ (8 * sz)
  encode_decode : ∀ (arr out : Bytes) (old : BitVec w) (sz : ℕ), sz ≤ w / 8 → sz ≤ arr.length →
    sz ≤ out.length → ∃ v, dec (some arr) (some old) sz = some (some v) ∧
      enc (some out) v sz = some (some (arr.take sz ++ out.drop sz))

/-- A codec of little-endian bytes. -/
theorem roundTrips_of_eq {w : ℕ} {enc : Option Bytes → BitVec w → ℕ → Option (Option Bytes)}
    {dec : Option Bytes → Option (BitVec w) → ℕ → Option (Option (BitVec w))}
    (henc : ∀ (arr : Bytes) n sz, 8 * sz ≤ w → sz ≤ arr.length →
      enc (some arr) n sz = some (some (leBytes sz n.toNat ++ arr.drop sz)))
    (hdec : ∀ (arr : Bytes) old sz, 8 * sz ≤ w → sz ≤ arr.length →
      dec (some arr) (some old) sz = some (some (BitVec.ofNat w (leVal (arr.take sz))))) :
    RoundTrips w enc dec := by
  have hval : ∀ (s : Bytes) sz, 8 * sz ≤ w → sz ≤ s.length →
      (BitVec.ofNat w (leVal (s.take sz))).toNat = leVal (s.take sz) := fun s sz hsz hs => by
    have hlt := leVal_take_lt hs
    have hpow : 256 ^ sz ≤ 2 ^ w := by
      rw [pow_256]
      exact Nat.pow_le_pow_right (by decide) hsz
    rw [BitVec.toNat_ofNat, Nat.mod_eq_of_lt (by omega)]
  constructor
  · intro arr n old sz hsz harr
    have hwritten : sz ≤ (leBytes sz n.toNat ++ arr.drop sz).length := by
      rw [List.length_append, leBytes_length]
      omega
    refine ⟨_, _, henc arr n sz (by omega) harr, ?_, hdec _ old sz (by omega) hwritten, ?_⟩
    · rw [List.drop_left' (leBytes_length sz _)]
    · rw [hval _ sz (by omega) hwritten, List.take_left' (leBytes_length sz _), leVal_leBytes,
        Nat.pow_mul]
  · intro arr out old sz hsz harr hout
    refine ⟨_, hdec arr old sz (by omega) harr, ?_⟩
    have hlen : (arr.take sz).length = sz := List.length_take_of_le harr
    have hback := leBytes_leVal (arr.take sz)
    rw [hlen] at hback
    rw [henc out _ sz (by omega) hout, hval arr sz (by omega) harr, hback]

section
variable {arr : Bytes} {sz : ℕ}

theorem uint64ToArr_eq (n : BitVec 64) (hsz : 8 * sz ≤ 64) (ha : sz ≤ arr.length) :
    uint64ToArr (some arr) n sz = some (some (leBytes sz n.toNat ++ arr.drop sz)) :=
  encode_eq (fun _ => BitVec.toNat_ushiftRight _ _) (by decide) hsz ha

theorem uint32ToArr_eq (n : BitVec 32) (hsz : 8 * sz ≤ 32) (ha : sz ≤ arr.length) :
    uint32ToArr (some arr) n sz = some (some (leBytes sz n.toNat ++ arr.drop sz)) :=
  encode_eq (fun _ => BitVec.toNat_ushiftRight _ _) (by decide) hsz ha

/-- The promoted `n` is not negative: no sign is shifted in. -/
theorem uint16ToArr_eq (n : BitVec 16) (hsz : 8 * sz ≤ 32) (ha : sz ≤ arr.length) :
    uint16ToArr (some arr) n sz = some (some (leBytes sz n.toNat ++ arr.drop sz)) := by
  have hn : (n.setWidth 32).toNat = n.toNat := by
    rw [BitVec.toNat_setWidth, Nat.mod_eq_of_lt (n.isLt.trans (by decide))]
  have hmsb : (n.setWidth 32).msb = false := by
    rw [BitVec.msb_eq_false_iff_two_mul_lt, hn]
    have := n.isLt
    omega
  rw [← hn]
  exact encode_eq (fun _ => BitVec.toNat_sshiftRight_of_msb_false hmsb) (by decide) hsz ha

end

/-- All six functions. -/
theorem roundTrips : RoundTrips 16 uint16ToArr arrToUint16 ∧
    RoundTrips 32 uint32ToArr arrToUint32 ∧ RoundTrips 64 uint64ToArr arrToUint64 := by
  refine ⟨?_, ?_, ?_⟩
  · apply roundTrips_of_eq
    · intro arr n sz hsz ha
      exact uint16ToArr_eq n (by omega) ha
    · intro arr old sz hsz ha
      exact decode_eq (by decide) hsz ha old
  · apply roundTrips_of_eq
    · intro arr n sz hsz ha
      exact uint32ToArr_eq n hsz ha
    · intro arr old sz hsz ha
      exact decode_eq le_rfl hsz ha old
  · apply roundTrips_of_eq
    · intro arr n sz hsz ha
      exact uint64ToArr_eq n hsz ha
    · intro arr old sz hsz ha
      exact decode_eq le_rfl hsz ha old

/-! ### The header on its way -/

/-- What `arr_2_uint64` and `arr_2_uint16` read from the fields of a message. -/
structure HeaderSays (m : Bytes) (t : Timespec) (len : UInt16) : Prop where
  second : ∀ old, arrToUint64 (some (m.drop offSecond)) (some old) lenU64int =
    some (some t.tvSec.toBitVec)
  nano : ∀ old, arrToUint64 (some (m.drop offNano)) (some old) lenU64int =
    some (some t.tvNsec.toBitVec)
  len : ∀ old, arrToUint16 (some (m.drop offLen)) (some old) lenU16int = some (some len.toBitVec)

/-- One hop of a message and of the length that it states: the server queues it or its reply, the
client answers it, or it is encrypted by one party and decrypted by the next. -/
inductive Hop : Bytes × UInt16 → Bytes × UInt16 → Prop where
  | queued {p : Bytes} {n : ℕ} {len : UInt16} {keyed : Bool} {q : Queued}
      (h : addToImdFwd p n keyed = some q) : Hop (p.take n, len) (q.item.msg, len)
  | replied {p b : Bytes} {n : ℕ} {len : UInt16} {route : UInt8} {q : Queued}
      (hp : p.length = maxMsg + 1) (h : replyKey p n route = some (b, some q)) :
      Hop (p.take n, len) (q.item.msg, 48)
  | answered {p p' : Bytes} {n : ℕ} {len : UInt16} {st : PeerState} {inBufout : Bool}
      (h : (clientHandle st inBufout p n).2.feedback = some p') : Hop (p.take n, len) (p', 0)
  | aes {m b bufout : Bytes} {k n : ℕ} {len : UInt16} {G : Gcm} {key iv : Bytes} (hG : G.Lawful)
      (henc : msgAesEnc G key iv m (zeros (maxMsg + 1)) (maxMsg + 1) = some (b, k))
      (hdec : (msgAesDec G key iv (recvBuf (b.take k)) bufout (b.take k).length (maxMsg + 1)).2 =
        some n) :
      Hop (m, len) ((msgAesDec G key iv (recvBuf (b.take k)) bufout (b.take k).length
        (maxMsg + 1)).1.take n, len)
  | rsa {m m' out : Bytes} {len : UInt16} {pubkey : RsaPub} {priv : RsaPrv}
      (hpair : ∀ plain cipher, rsaEnc pubkey plain = some cipher → rsaDec priv cipher = some plain)
      (henc : rsaEnc pubkey m = some out) (hdec : rsaDec priv out = some m') :
      Hop (m, len) (m', len)

/-- The number in `k` bytes of a message. -/
def fieldVal (m : Bytes) (off k : ℕ) : ℕ := leVal ((m.drop off).take k)

theorem fieldVal_written {m : Bytes} {off k : ℕ} (h : off + k ≤ m.length) (v : ℕ) :
    fieldVal (memcpy m off (leBytes k v)) off k = v % 256 ^ k :=
  Record.get_set_self ⟨m, rfl⟩ ⟨off, k, h⟩ v

theorem fieldVal_kept {m src : Bytes} {off off' k : ℕ} (h : off + src.length ≤ m.length)
    (h' : off' + k ≤ m.length) (hdisjoint : off + src.length ≤ off' ∨ off' + k ≤ off) :
    fieldVal (memcpy m off src) off' k = fieldVal m off' k :=
  Record.get_write ⟨m, rfl⟩ h (f := ⟨off', k, h'⟩) hdisjoint

/-- The numbers in the time fields. -/
structure TimeVals (m : Bytes) (t : Timespec) : Prop where
  length : sizeofMsgCommon ≤ m.length
  second : fieldVal m offSecond lenU64int = t.tvSec.toNat
  nano : fieldVal m offNano lenU64int = t.tvNsec.toNat

structure HeaderVals (m : Bytes) (t : Timespec) (len : UInt16) : Prop extends TimeVals m t where
  len : fieldVal m offLen lenU16int = len.toNat

theorem HeaderVals.headerSays {m : Bytes} {t : Timespec} {len : UInt16} (h : HeaderVals m t len) :
    HeaderSays m t len := by
  have hlen := h.length
  have hread : ∀ {w : ℕ} (off k : ℕ) (v : BitVec w), 8 * k ≤ w → off + k ≤ m.length →
      fieldVal m off k = v.toNat → ∀ p, w ≤ p → ∀ old,
        decode p (some (m.drop off)) (some old) k = some (some v) := by
    intro w off k v hk hoff hval p hp old
    rw [decode_eq hp hk (by rw [List.length_drop]; omega), ← fieldVal, hval, BitVec.ofNat_toNat,
      BitVec.setWidth_eq]
  simp only [sizeofMsgCommon] at hlen
  constructor
  · exact hread offSecond lenU64int _ (by decide) (by simp; omega) h.second 64 le_rfl
  · exact hread offNano lenU64int _ (by decide) (by simp; omega) h.nano 64 le_rfl
  · exact hread offLen lenU16int _ (by decide) (by simp; omega) h.len 32 (by decide)

theorem uint64_field (n : UInt64) : Notify.uint64ToArr n lenU64int = leBytes 8 n.toNat :=
  uintToArr_eq n.toNat 8

theorem uint16_field (n : UInt16) : Notify.uint16ToArr n lenU16int = leBytes 2 n.toNat :=
  uintToArr_eq n.toNat 2

section
variable {m m' : Bytes} {t : Timespec} {len : UInt16}

theorem TimeVals.setLen (h : TimeVals m t) (len : UInt16) :
    HeaderVals (setLen m (Notify.uint16ToArr len lenU16int)) t len := by
  have hlen := h.length
  simp only [sizeofMsgCommon] at hlen
  have hfit : offLen + (leBytes 2 len.toNat).length ≤ m.length := by
    rw [leBytes_length]
    simp only [offLen]
    omega
  rw [Notify.setLen, uint16_field]
  constructor
  · constructor
    · rw [memcpy_length hfit]
      exact h.length
    · rw [fieldVal_kept hfit (by simp; omega) (.inr (by decide))]
      exact h.second
    · rw [fieldVal_kept hfit (by simp; omega) (.inr (by decide))]
      exact h.nano
  · rw [lenU16int, fieldVal_written (by simp; omega)]
    exact Nat.mod_eq_of_lt len.toNat_lt

theorem TimeVals.setIfroute (h : TimeVals m t) (route : UInt8) :
    TimeVals (setIfroute m route) t := by
  have hlen := h.length
  simp only [sizeofMsgCommon] at hlen
  have hfit : offIfroute + [route].length ≤ m.length := by
    simp only [offIfroute, List.length_singleton]
    omega
  rw [Notify.setIfroute]
  constructor
  · rw [memcpy_length hfit]
    exact h.length
  · rw [fieldVal_kept hfit (by simp; omega) (.inl (by simp))]
    exact h.second
  · rw [fieldVal_kept hfit (by simp; omega) (.inl (by simp))]
    exact h.nano

theorem timeVals_written (hm : sizeofMsgCommon ≤ m.length) (t : Timespec) :
    TimeVals (putTimeToMsg m (some t)) t := by
  have hlen := putTimeToMsg_length hm (some t)
  have hm' := hm
  simp only [sizeofMsgCommon] at hm'
  have hsecond : (memcpy m offSecond (leBytes 8 t.tvSec.toNat)).length = m.length :=
    memcpy_length (by simp; omega)
  constructor
  · rwa [hlen]
  · rw [putTimeToMsg, uint64_field, uint64_field,
      fieldVal_kept (by rw [hsecond]; simp; omega) (by rw [hsecond]; simp; omega)
        (.inr (by decide)), lenU64int, fieldVal_written (by simp; omega)]
    exact Nat.mod_eq_of_lt t.tvSec.toNat_lt
  · rw [putTimeToMsg, uint64_field, uint64_field, lenU64int,
      fieldVal_written (by rw [hsecond]; simp; omega)]
    exact Nat.mod_eq_of_lt t.tvNsec.toNat_lt

/-- The header decides the numbers. -/
theorem HeaderVals.congr (h : HeaderVals m t len)
    (htake : m.take sizeofMsgCommon = m'.take sizeofMsgCommon) (hm' : sizeofMsgCommon ≤ m'.length) :
    HeaderVals m' t len := by
  have hval : ∀ off k, off + k ≤ sizeofMsgCommon → fieldVal m' off k = fieldVal m off k := by
    intro off k hk
    have hcut := congrArg (List.take (off + k)) htake
    rw [List.take_take, List.take_take, Nat.min_eq_left hk] at hcut
    rw [fieldVal, fieldVal, List.take_drop, List.take_drop, hcut]
  constructor
  · constructor
    · exact hm'
    · rw [hval _ _ (by decide)]
      exact h.second
    · rw [hval _ _ (by decide)]
      exact h.nano
  · rw [hval _ _ (by decide)]
    exact h.len

/-- A message in its buffer. -/
theorem HeaderVals.of_take {p : Bytes} {n : ℕ} (h : HeaderVals (p.take n) t len) :
    sizeofMsgCommon ≤ n ∧ HeaderVals p t len := by
  have hlen := h.length
  rw [List.length_take] at hlen
  refine ⟨by omega, h.congr ?_ (by omega)⟩
  rw [List.take_take, Nat.min_eq_left (by omega)]

/-- The next party holds the message that was encrypted. -/
theorem aes_received {G : Gcm} (hG : G.Lawful) {key iv b bufout : Bytes} {k n : ℕ}
    (henc : msgAesEnc G key iv m (zeros (maxMsg + 1)) (maxMsg + 1) = some (b, k))
    (hdec : (msgAesDec G key iv (recvBuf (b.take k)) bufout (b.take k).length (maxMsg + 1)).2 =
      some n) :
    (msgAesDec G key iv (recvBuf (b.take k)) bufout (b.take k).length (maxMsg + 1)).1.take n =
      m := by
  have hsome := msgAesEnc_isSome_iff G key iv m (zeros (maxMsg + 1)) (maxMsg + 1)
  rw [henc] at hsome
  have hfit : m.length + 1 + aesIvBytes ≤ maxMsg + 1 := (hsome.mp rfl).1
  obtain ⟨cipher, tag, hsent, -, -, -, htake⟩ := msgAesEnc_take (by simp) henc
  have hread := msgAesDec_recvBuf hsent (hG.undo _ _ _ _ _ hsent) hfit bufout
  rw [htake, hread] at hdec ⊢
  cases hdec
  rw [memcpy_start, List.take_left' rfl]

/-- One hop keeps the time; the length is the one stated last. -/
theorem HeaderVals.hop (h : HeaderVals m t len) {len' : UInt16} (hx : Hop (m, len) (m', len')) :
    HeaderVals m' t len' := by
  cases hx with
  | @queued p n _ keyed q hq =>
    unfold addToImdFwd at hq
    split_ifs at hq
    cases hq
    exact h
  | @replied p b n _ route q hp hq =>
    obtain ⟨hn, hbuf⟩ := h.of_take
    have hset : HeaderVals (setReply p route) t 48 := (hbuf.toTimeVals.setIfroute route).setLen 48
    have hle := (replyKey_item hp hq).1
    have hfront : sizeofMsgCommon ≤ ((setReply p route).take n).length := by
      rw [List.length_take, setReply_length route hp]
      omega
    rw [replyKey_msg hp hq]
    apply hset.congr
    · rw [List.take_append_of_le_length hfront, List.take_take, Nat.min_eq_left hn]
    · rw [List.length_append]
      omega
  | @answered p p' n _ st inBufout hq =>
    obtain ⟨-, hbuf⟩ := h.of_take
    unfold clientHandle at hq
    by_cases hroute : ifroute p = gNtfCli
    · rw [if_pos hroute] at hq
      cases hq
      exact (hbuf.toTimeVals.setIfroute gCliNtf).setLen 0
    · rw [if_neg hroute] at hq
      dsimp only at hq
      split_ifs at hq
  | @aes _ b bufout k n _ G key iv hG henc hdec =>
    rw [aes_received hG henc hdec]
    exact h
  | @rsa _ _ out _ pubkey priv hpair henc hdec =>
    rw [hpair m out henc] at hdec
    cases hdec
    exact h

theorem HeaderVals.hops (h : HeaderVals m t len) {x : Bytes × UInt16}
    (hway : Relation.ReflTransGen Hop (m, len) x) : HeaderVals x.1 t x.2 := by
  induction hway with
  | refl => exact h
  | tail _ hx ih => exact ih.hop hx

end

/-- Whatever is written to the time fields and stated as the length is read from every message
that it becomes on its way. -/
def HeaderSurvives : Prop :=
  ∀ (m : Bytes) (t : Timespec) (len : UInt16), sizeofMsgCommon ≤ m.length → ∀ x,
    Relation.ReflTransGen Hop
      (setLen (putTimeToMsg m (some t)) (Notify.uint16ToArr len lenU16int), len) x →
    HeaderSays x.1 t x.2

/-- The codecs are inverse to each other, and no hop loses what they write. -/
theorem codecs_survive : (RoundTrips 16 uint16ToArr arrToUint16 ∧
    RoundTrips 32 uint32ToArr arrToUint32 ∧ RoundTrips 64 uint64ToArr arrToUint64) ∧
      HeaderSurvives := by
  refine ⟨roundTrips, ?_⟩
  intro m t len hm x hway
  have hwritten := (timeVals_written hm t).setLen len
  exact (hwritten.hops hway).headerSays

/-- A notification of a header alone, with a time and a length written to it. -/
def sampleHeader : Bytes :=
  setLen (putTimeToMsg (zeros sizeofMsgCommon) (some ⟨1509330615, 250⟩))
    (Notify.uint16ToArr 7 lenU16int)

/-- Its encryption, recorded. -/
def headerGcm : Gcm :=
  Gcm.recorded aesKey ivBytes sampleHeader (sampleHeader.map fun c => c ^^^ 90)
    (List.replicate aesIvBytes 7) (List.length_map _) List.length_replicate

/-- The notification is queued, encrypted by the server and answered by the client: the time is
the same, and the answer has no length. -/
theorem codecs_survive_sample :
    ∃ p, Relation.ReflTransGen Hop (sampleHeader, 7) (p, 0) ∧ ifroute p = gCliNtf ∧
      HeaderSays p ⟨1509330615, 250⟩ 0 := by
  have hlen : sampleHeader.length = 100 := by decide +kernel
  have hqueued : Hop (sampleHeader, 7) (sampleHeader, 7) := by
    have hq : addToImdFwd sampleHeader 100 false = some ⟨newItem sampleHeader 100 hlen.ge, false⟩ :=
      dif_pos hlen.ge
    have hhop := @Hop.queued sampleHeader 100 7 false _ hq
    have hmsg : (newItem sampleHeader 100 hlen.ge).msg = sampleHeader :=
      List.take_of_length_le hlen.le
    rwa [List.take_of_length_le hlen.le, hmsg] at hhop
  have hsent : Hop (sampleHeader, 7) (sampleHeader, 7) := by
    have hG : headerGcm.Lawful := Gcm.recorded_lawful _ _ (by decide)
    have hfit : sampleHeader.length + 1 + aesIvBytes ≤ maxMsg + 1 := by
      rw [hlen]
      decide
    have hsome := (msgAesEnc_isSome_iff headerGcm aesKey ivBytes sampleHeader (zeros (maxMsg + 1))
      (maxMsg + 1)).mpr ⟨hfit, hG.total _ _ _⟩
    obtain ⟨⟨b, k⟩, henc⟩ := Option.isSome_iff_exists.mp hsome
    obtain ⟨cipher, tag, hcipher, -, -, -, htake⟩ := msgAesEnc_take (by simp) henc
    have hread := msgAesDec_recvBuf hcipher (hG.undo _ _ _ _ _ hcipher) hfit []
    rw [← htake] at hread
    have hdec := congrArg Prod.snd hread
    have hhop : Hop (sampleHeader, 7) (_, 7) := Hop.aes hG henc hdec
    rwa [aes_received hG henc hdec] at hhop
  have hanswered : ∃ p, Hop (sampleHeader, 7) (p, 0) ∧ ifroute p = gCliNtf := by
    have hroute : ifroute sampleHeader = gNtfCli := by decide +kernel
    have hhop := @Hop.answered sampleHeader _ 100 7 ⟨[], [], false, []⟩ false
      (by rw [clientHandle, if_pos hroute])
    rw [List.take_of_length_le hlen.le] at hhop
    exact ⟨_, hhop, by decide +kernel⟩
  obtain ⟨p, hanswer, hroute⟩ := hanswered
  have hway : Relation.ReflTransGen Hop (sampleHeader, 7) (p, 0) :=
    ((Relation.ReflTransGen.single hqueued).tail hsent).tail hanswer
  exact ⟨p, hway, hroute, codecs_survive.2 (zeros sizeofMsgCommon) _ 7 (zeros_length _).ge _ hway⟩

end MemoryLeak.Notify.Codecs
