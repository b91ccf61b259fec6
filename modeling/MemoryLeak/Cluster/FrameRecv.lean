import MemoryLeak.Cluster.FileTransfer
import Mathlib.Data.Nat.Find

/-!
# Messages in frames

`lcs_3des_recv` against `lcs_3des_send`. It receives at most 512 bytes into a buffer of 517
and decrypts 1024 from there: `behind` stands for the 507 bytes that follow the buffer in
memory, whatever they are at each turn.
-/
namespace MemoryLeak.Cluster
open MemoryLeak.CBytes MemoryLeak.CText MemoryLeak.Cbc MemoryLeak.Loops

/-- The calls of `recv` so far, the chaining block, and what was written to `*data`, `*mode`
and `*len`. -/
structure Recv3des where
  i : ℕ
  iv : Bytes
  data : Option Bytes
  mode : UInt8
  len : ℕ

section Recv

variable (c : Des) (wanted : Bool) (recv : ℕ → Bytes) (behind : ℕ → Fin 507 → UInt8)

/-- The 1024 bytes that are decrypted: the cleared buffer with what is received, and what is
behind it. -/
def cipherAt (i : ℕ) : Bytes :=
  (recv i).take 512 ++ zeros (517 - ((recv i).take 512).length) ++ List.ofFn (behind i)

/-- The buffer `segment` then. -/
def segmentAt (s : Recv3des) : Bytes := decrypt c 128 s.iv (cipherAt recv behind s.i) ++ zeros 5

/-- What a turn leaves; `wanted` says whether there is a `data`. -/
def afterRecv (s : Recv3des) : Recv3des :=
  if (recv s.i).take 512 = [] then { s with i := s.i + 1 }
  else
    let segment := segmentAt c recv behind s
    { i := s.i + 1
      iv := (cipherAt recv behind s.i).drop 1016
      data := if wanted then some (text (segment.drop 3)) else s.data
      mode := byteAt segment 0
      len := segmentLength segment }

/-- `sprintf` writes behind the block that `calloc(1, length + 1)` gives. -/
def Overflows (s : Recv3des) : Prop :=
  wanted = true ∧ segmentLength (segmentAt c recv behind s) <
    (text ((segmentAt c recv behind s).drop 3)).length

instance (s : Recv3des) : Decidable (Overflows c wanted recv behind s) :=
  inferInstanceAs (Decidable (_ ∧ _))

/-- A turn of `do { .. } while(1)`; a `recv` without a byte is followed by the next one. -/
def recv3desTurn (s : Recv3des) : Option (Turn Recv3des) :=
  if (recv s.i).take 512 = [] then some (.again (afterRecv c wanted recv behind s))
  else if Overflows c wanted recv behind s then none
  else
    let cmod := byteAt (segmentAt c recv behind s) 0
    if cmod = modeOver then some (.leave (afterRecv c wanted recv behind s))
    else if cmod = modeOff then some (.leave (afterRecv c wanted recv behind s))
    else some (.again (afterRecv c wanted recv behind s))

/-- The state before the loop; the caller's `mode` and `len` are 0. -/
def startRecv : Recv3des := ⟨0, cblock, none, 0, 0⟩

/-- `lcs_3des_recv`, and whether `*err` is set; `keys` says whether the keys are accepted. -/
def lcs3desRecv (keys : Bool) (fuel : ℕ) : Option (Recv3des × Bool) :=
  if keys then
    (whileLoop (recv3desTurn c wanted recv behind) fuel startRecv).map fun s => (s, false)
  else some (startRecv, true)

/-! ### When the loop ends -/

/-- The state after so many calls of `recv`. -/
def recvState : ℕ → Recv3des
  | 0 => startRecv
  | i + 1 => afterRecv c wanted recv behind (recvState i)

/-- A call that receives something. -/
def Receives (i : ℕ) : Prop := (recv i).take 512 ≠ []

/-- The call receives a frame of a mode that ends the loop. -/
def EndsAt (i : ℕ) : Prop :=
  Receives recv i ∧
    (byteAt (segmentAt c recv behind (recvState c wanted recv behind i)) 0 = modeOver ∨
      byteAt (segmentAt c recv behind (recvState c wanted recv behind i)) 0 = modeOff)

/-- What the call receives is written within its block. -/
def WritesWithin (i : ℕ) : Prop :=
  Receives recv i → ¬ Overflows c wanted recv behind (recvState c wanted recv behind i)

variable {c wanted recv behind}

@[simp] theorem afterRecv_i (s : Recv3des) : (afterRecv c wanted recv behind s).i = s.i + 1 := by
  rw [afterRecv]
  split_ifs <;> rfl

theorem recvState_i (i : ℕ) : (recvState c wanted recv behind i).i = i := by
  induction i with
  | zero => rfl
  | succ i ih => rw [recvState, afterRecv_i, ih]

/-- A turn that goes on leads to the next state. -/
theorem recv3desTurn_again {s s' : Recv3des}
    (h : recv3desTurn c wanted recv behind s = some (.again s')) :
    s' = afterRecv c wanted recv behind s := by
  rw [recv3desTurn] at h
  dsimp only at h
  split_ifs at h <;> simpa using h.symm

theorem leave_iff (i : ℕ) :
    (∃ s', recv3desTurn c wanted recv behind (recvState c wanted recv behind i) =
      some (.leave s')) ↔ EndsAt c wanted recv behind i ∧ WritesWithin c wanted recv behind i := by
  rw [recv3desTurn, EndsAt, WritesWithin, Receives, recvState_i]
  dsimp only
  split_ifs with hrecv hover h1 h2 <;> simp [*]

theorem again_iff (i : ℕ) :
    (∃ s', recv3desTurn c wanted recv behind (recvState c wanted recv behind i) =
      some (.again s')) ↔
      ¬ EndsAt c wanted recv behind i ∧ WritesWithin c wanted recv behind i := by
  rw [recv3desTurn, EndsAt, WritesWithin, Receives, recvState_i]
  dsimp only
  split_ifs with hrecv hover h1 h2 <;> simp [*]

/-- The loop ends exactly when a frame of a mode that ends it is received and all is written
within its block up to there. -/
theorem recv_terminates_iff (c : Des) (wanted : Bool) (recv : ℕ → Bytes)
    (behind : ℕ → Fin 507 → UInt8) :
    (∃ fuel, (lcs3desRecv c wanted recv behind true fuel).isSome) ↔
      ∃ i, EndsAt c wanted recv behind i ∧ ∀ j ≤ i, WritesWithin c wanted recv behind j := by
  have hloop := @whileLoop_ends_iff _ (recv3desTurn c wanted recv behind)
    (recvState c wanted recv behind) fun i s' h => recv3desTurn_again h
  have hends : (∃ fuel, (lcs3desRecv c wanted recv behind true fuel).isSome) ↔
      ∃ n s', whileLoop (recv3desTurn c wanted recv behind) n startRecv = some s' := by
    simp only [lcs3desRecv, if_true, Option.isSome_map, Option.isSome_iff_exists]
  rw [hends]
  refine hloop.trans ?_
  simp only [leave_iff, again_iff]
  constructor
  · rintro ⟨i, ⟨hi, hwi⟩, hbefore⟩
    refine ⟨i, hi, fun j hj => ?_⟩
    rcases Nat.lt_or_eq_of_le hj with hj | rfl
    · exact (hbefore j hj).2
    · exact hwi
  · rintro ⟨i, hi, hwithin⟩
    classical
    -- the first frame that ends the loop
    have hex : ∃ i, EndsAt c wanted recv behind i := ⟨i, hi⟩
    have hle : Nat.find hex ≤ i := Nat.find_min' hex hi
    exact ⟨Nat.find hex, ⟨Nat.find_spec hex, hwithin _ hle⟩, fun j hj =>
      ⟨Nat.find_min hex hj, hwithin j (by omega)⟩⟩

end Recv

/-- When nothing is received any more, the loop does not end. -/
theorem closed_connection_never_ends :
    ¬ ∃ fuel, (lcs3desRecv reverseBlocks true (fun _ => []) (fun _ _ => 0) true fuel).isSome := by
  rintro ⟨fuel, h⟩
  simp only [lcs3desRecv, if_true, Option.isSome_map] at h
  obtain ⟨s', hs'⟩ := Option.isSome_iff_exists.mp h
  obtain ⟨s, -, hleave⟩ := whileLoop_left (I := fun _ => True) (fun _ _ _ _ => trivial) trivial hs'
  rw [recv3desTurn, if_pos List.take_nil] at hleave
  simp at hleave

/-! ### Messages that come back -/

/-- Each `send` of a message is delivered as one `recv`, which takes 512 bytes of it at most. -/
def delivered (c : Des) (msg : Bytes) (i : ℕ) : Bytes := (lcs3desSend c modeOver msg).getD i []

/-- The message is received as it was sent. -/
def ComesBack (c : Des) (behind : ℕ → Fin 507 → UInt8) (t : Bytes) : Prop :=
  ∃ s, (∀ fuel, 0 < fuel →
      lcs3desRecv c true (delivered c (t ++ [0])) behind true fuel = some (s, false)) ∧
    s.data = some t ∧ s.mode = modeOver ∧ s.len = (t ++ [0]).length

/-- The end of the buffer and the memory behind it, decrypted with the last of the 512 bytes that
are received of a message's frame as their chaining block. -/
def overread (c : Des) (behind : ℕ → Fin 507 → UInt8) (msg : Bytes) : Bytes :=
  decrypt c 64 (((delivered c msg 0).take 512).drop 504) (zeros 5 ++ List.ofFn (behind 0))

theorem frameSize_spec_of_le {m : ℕ} (h : m ≤ 515) :
    m ≤ frameSize m ∧ 8 ≤ frameSize m ∧ frameSize m ≤ 1024 ∧ frameSize m % 8 = 0 ∧
      (512 < m → 512 < frameSize m) := by
  have hall : ∀ m : Fin 516, m.val ≤ frameSize m.val ∧ 8 ≤ frameSize m.val ∧
      frameSize m.val ≤ 1024 ∧ frameSize m.val % 8 = 0 ∧ (512 < m.val → 512 < frameSize m.val) := by
    decide +kernel
  exact hall ⟨m, by omega⟩

section ComesBack

variable {c : Des} (behind : ℕ → Fin 507 → UInt8) {msg : Bytes}

/-- The first frame has at most 512 bytes of the message, their number taken modulo 2^16. -/
theorem delivered_zero (hmsg : msg ≠ []) : delivered c msg 0 =
    frameFrom c cblock modeOver (msg.take (min (msg.length % 65536) 512)) := by
  rw [delivered, lcs3desSend, lcs3desSendFrom, if_neg hmsg]
  rfl

/-- A frame of which 512 bytes are received is decrypted as far, whatever follows. -/
theorem decrypt_frame_take (mode : UInt8) {chunk : Bytes} (hchunk : chunk.length ≤ 512)
    (tail : Bytes) :
    (decrypt c 128 cblock ((frameFrom c cblock mode chunk).take 512 ++ tail)).take
        (min 512 (frameSize (chunk.length + 3))) =
      (segmentOf mode chunk).take (min 512 (frameSize (chunk.length + 3))) := by
  obtain ⟨hle, -, hmax, hmod, -⟩ := frameSize_spec_of_le (m := chunk.length + 3) (by omega)
  have hlen := segmentOf_length_of_le mode hle
  have hblocks : frameSize (chunk.length + 3) / 8 * 8 = frameSize (chunk.length + 3) := by omega
  have hcut : min 512 (frameSize (chunk.length + 3)) / 8 * 8 =
      min 512 (frameSize (chunk.length + 3)) := by omega
  have hdec := decrypt_encrypt (c := c) (j := min 512 (frameSize (chunk.length + 3)) / 8)
    (n := frameSize (chunk.length + 3) / 8) (m := 128) (x := segmentOf mode chunk) (by omega)
    (by omega) cblock_length (by rw [hblocks, hlen]) tail
  have hframe : (frameFrom c cblock mode chunk).length = frameSize (chunk.length + 3) := by
    rw [frameFrom, encrypt_length cblock_length (by rw [hblocks, hlen]), hblocks]
  have htake : (frameFrom c cblock mode chunk).take 512 =
      (frameFrom c cblock mode chunk).take (min 512 (frameSize (chunk.length + 3))) := by
    rw [← hframe, ← List.take_eq_take_min]
  rw [hcut] at hdec
  rw [htake, ← hdec]
  rfl

theorem cipherAt_length (behind : ℕ → Fin 507 → UInt8) (recv : ℕ → Bytes) (i : ℕ) :
    (cipherAt recv behind i).length = 1024 := by
  have hlen : ((recv i).take 512).length ≤ 512 := List.length_take_le 512 _
  rw [cipherAt, List.length_append, List.length_append, zeros_length, List.length_ofFn]
  omega

theorem segmentAt_length (behind : ℕ → Fin 507 → UInt8) (recv : ℕ → Bytes) :
    (segmentAt c recv behind startRecv).length = 1029 := by
  have hlen : 128 * 8 ≤ (cipherAt recv behind startRecv.i).length :=
    (cipherAt_length behind recv _).ge
  rw [segmentAt, List.length_append,
    decrypt_length (show startRecv.iv.length = 8 from cblock_length) hlen, zeros_length]

/-- What is decrypted of a first frame, as far as it was received. -/
theorem segmentAt_take {chunk : Bytes} (hchunk : chunk.length ≤ 512)
    (hframe : delivered c msg 0 = frameFrom c cblock modeOver chunk) :
    (segmentAt c (delivered c msg) behind startRecv).take (min 512 (frameSize (chunk.length + 3))) =
      (segmentOf modeOver chunk).take (min 512 (frameSize (chunk.length + 3))) := by
  have hlen : 128 * 8 ≤ (cipherAt (delivered c msg) behind startRecv.i).length :=
    (cipherAt_length behind _ _).ge
  rw [← decrypt_frame_take modeOver hchunk
    (zeros (517 - ((delivered c msg 0).take 512).length) ++ List.ofFn (behind 0)),
      ← List.append_assoc,
    ← hframe, segmentAt, List.take_append_of_le_length]
  · rfl
  · rw [decrypt_length (show startRecv.iv.length = 8 from cblock_length) hlen]
    omega

/-- What is decrypted behind 512 bytes that are received. -/
theorem segmentAt_drop (hfull : ((delivered c msg 0).take 512).length = 512) :
    (segmentAt c (delivered c msg) behind startRecv).drop 512 =
      overread c behind msg ++ zeros 5 := by
  have hcipher : cipherAt (delivered c msg) behind startRecv.i =
      (delivered c msg 0).take 512 ++ (zeros 5 ++ List.ofFn (behind 0)) := by
    have hcleared : 517 - ((delivered c msg 0).take 512).length = 5 := by rw [hfull]
    rw [cipherAt, show startRecv.i = 0 from rfl, hcleared, List.append_assoc]
  have hblocks : ((delivered c msg 0).take 512).length = (63 + 1) * 8 := hfull
  have hreceived : (decrypt c 64 cblock ((delivered c msg 0).take 512)).length = 512 :=
    decrypt_length cblock_length hfull.ge
  rw [segmentAt, hcipher, show startRecv.iv = cblock from rfl,
    decrypt_append (n := 63) 64 hblocks, List.append_assoc, List.drop_left' hreceived]
  rfl

/-- Mode and length of the first frame that is received. -/
theorem segmentAt_header {chunk : Bytes} (hchunk : chunk.length ≤ 512)
    (hframe : delivered c msg 0 = frameFrom c cblock modeOver chunk) :
    byteAt (segmentAt c (delivered c msg) behind startRecv) 0 = modeOver ∧
      segmentLength (segmentAt c (delivered c msg) behind startRecv) = chunk.length := by
  obtain ⟨-, hmin, -, -, -⟩ := frameSize_spec_of_le (m := chunk.length + 3) (by omega)
  have hbyte : ∀ i < 3, byteAt (segmentAt c (delivered c msg) behind startRecv) i =
      byteAt (segmentOf modeOver chunk) i := by
    intro i hi
    have hcut : i < min 512 (frameSize (chunk.length + 3)) := by omega
    rw [← byteAt_take _ hcut, segmentAt_take behind hchunk hframe, byteAt_take _ hcut]
  refine ⟨(hbyte 0 (by omega)).trans rfl, ?_⟩
  rw [segmentLength, hbyte 1 (by omega), hbyte 2 (by omega)]
  have hone : byteAt (segmentOf modeOver chunk) 1 = UInt8.ofNat chunk.length := rfl
  have htwo : byteAt (segmentOf modeOver chunk) 2 = UInt8.ofNat (chunk.length / 256) := rfl
  rw [hone, htwo, UInt8.toNat_ofNat', UInt8.toNat_ofNat']
  omega

/-- The data that is received: as much as is in the first 512 bytes, and what is decrypted
behind them. -/
theorem segmentAt_data {chunk : Bytes} (hchunk : chunk.length ≤ 512)
    (hframe : delivered c msg 0 = frameFrom c cblock modeOver chunk) :
    ((segmentAt c (delivered c msg) behind startRecv).drop 3).take chunk.length =
      chunk.take 509 ++ (overread c behind msg).take (chunk.length - 509) := by
  obtain ⟨hle, -, -, hmod, hlong⟩ := frameSize_spec_of_le (m := chunk.length + 3) (by omega)
  have htake := segmentAt_take behind hchunk hframe
  have hdata : ∀ n, n ≤ 509 → n ≤ chunk.length →
      ((segmentAt c (delivered c msg) behind startRecv).drop 3).take n = chunk.take n := by
    intro n hn hnc
    have hcut : 3 + n ≤ min 512 (frameSize (chunk.length + 3)) := by omega
    have h := congrArg (List.take (3 + n)) htake
    rw [List.take_take, List.take_take, Nat.min_eq_left hcut] at h
    have h3 := congrArg (List.drop 3) h
    rw [List.drop_take, List.drop_take, Nat.add_sub_cancel_left] at h3
    rw [h3]
    show (chunk ++ zeros _).take n = chunk.take n
    rw [List.take_append_of_le_length hnc]
  rcases Nat.le_or_ge chunk.length 509 with hshort | hover
  · rw [hdata _ hshort le_rfl, Nat.sub_eq_zero_of_le hshort, List.take_zero, List.append_nil,
      List.take_of_length_le le_rfl, List.take_of_length_le hshort]
  · rcases hover.eq_or_lt with hfits | hover
    · rw [← hfits, hdata 509 le_rfl hfits.le, Nat.sub_self, List.take_zero, List.append_nil]
    have hlen : (delivered c msg 0).length = frameSize (chunk.length + 3) := by
      rw [hframe, frameFrom, encrypt_length cblock_length
        (by rw [segmentOf_length_of_le modeOver hle]; omega)]
      omega
    have hfull : ((delivered c msg 0).take 512).length = 512 :=
      List.length_take_of_le (by have := hlong (by omega); omega)
    have hrest : (overread c behind msg).length = 512 := by
      have hchain : (((delivered c msg 0).take 512).drop 504).length = 8 := by
        rw [List.length_drop, hfull]
      rw [overread, decrypt_length hchain]
      rw [List.length_append, zeros_length, List.length_ofFn]
    have hsplit : chunk.length = 509 + (chunk.length - 509) := by omega
    rw [hsplit, List.take_add, hdata 509 le_rfl hover.le, List.drop_drop, Nat.add_sub_cancel_left,
      segmentAt_drop behind hfull, List.take_append_of_le_length (by omega)]

/-- The first turn is the only one. -/
theorem lcs3desRecv_delivered {chunk : Bytes} (hchunk : chunk.length ≤ 512)
    (hframe : delivered c msg 0 = frameFrom c cblock modeOver chunk) {fuel : ℕ} (hfuel : 0 < fuel) :
    lcs3desRecv c true (delivered c msg) behind true fuel =
      if chunk.length <
          (text ((segmentAt c (delivered c msg) behind startRecv).drop 3)).length then none
      else some (⟨1, (cipherAt (delivered c msg) behind 0).drop 1016,
        some (text ((segmentAt c (delivered c msg) behind startRecv).drop 3)), modeOver,
        chunk.length⟩, false) := by
  obtain ⟨hmode, hlength⟩ := segmentAt_header behind hchunk hframe
  obtain ⟨hle, hmin, -, hmod, -⟩ := frameSize_spec_of_le (m := chunk.length + 3) (by omega)
  have hne : (delivered c msg 0).take 512 ≠ [] := by
    have hlen : (delivered c msg 0).length = frameSize (chunk.length + 3) / 8 * 8 := by
      rw [hframe, frameFrom, encrypt_length cblock_length
        (by rw [segmentOf_length_of_le modeOver hle]; omega)]
    intro hnil
    have := congrArg List.length hnil
    rw [List.length_take, List.length_nil] at this
    omega
  have hturn : recv3desTurn c true (delivered c msg) behind startRecv =
      if chunk.length <
          (text ((segmentAt c (delivered c msg) behind startRecv).drop 3)).length then none
      else some (.leave ⟨1, (cipherAt (delivered c msg) behind 0).drop 1016,
        some (text ((segmentAt c (delivered c msg) behind startRecv).drop 3)), modeOver,
        chunk.length⟩) := by
    have hafter : afterRecv c true (delivered c msg) behind startRecv =
        ⟨1, (cipherAt (delivered c msg) behind 0).drop 1016,
          some (text ((segmentAt c (delivered c msg) behind startRecv).drop 3)), modeOver,
          chunk.length⟩ := by
      rw [← hmode, ← hlength, afterRecv]
      exact if_neg hne
    rw [recv3desTurn, hafter, hmode, show startRecv.i = 0 from rfl, if_neg hne]
    simp only [Overflows, hlength, true_and, if_true]
  rw [lcs3desRecv, if_pos rfl]
  split_ifs with hover
  · rw [if_pos hover] at hturn
    cases fuel with
    | zero => rfl
    | succ fuel => rw [whileLoop, hturn, Option.map_none]
  · rw [if_neg hover] at hturn
    rw [whileLoop_leave hturn hfuel, Option.map_some]

/-- What the first turn must have read for the message to come back. -/
theorem comesBack_delivered {chunk t : Bytes} (hchunk : chunk.length ≤ 512)
    (hframe : delivered c (t ++ [0]) 0 = frameFrom c cblock modeOver chunk) :
    ComesBack c behind t ↔
      text ((segmentAt c (delivered c (t ++ [0])) behind startRecv).drop 3) = t ∧
        chunk.length = t.length + 1 := by
  have hmsg : (t ++ [0]).length = t.length + 1 := by rw [List.length_append, List.length_singleton]
  have hrun := fun fuel (hfuel : 0 < fuel) => lcs3desRecv_delivered behind hchunk hframe hfuel
  constructor
  · rintro ⟨s, hs, hdata, -, hlen⟩
    have hone := hs 1 Nat.one_pos
    rw [hrun 1 Nat.one_pos] at hone
    split_ifs at hone
    rw [← (Prod.mk.inj (Option.some.inj hone)).1] at hdata hlen
    exact ⟨Option.some.inj hdata, hlen.trans hmsg⟩
  · rintro ⟨htext, hlen⟩
    refine ⟨_, fun fuel hfuel => (hrun fuel hfuel).trans (if_neg ?_), congrArg some htext, rfl, ?_⟩
    · rw [htext]
      omega
    · rw [hmsg, ← hlen]

/-- A message comes back exactly when it has at most 512 bytes, and what is decrypted behind the
512 bytes of its frame that are received happens to be the rest of it. -/
theorem comesBack_iff {t : Bytes} (ht : (0 : UInt8) ∉ t) :
    ComesBack c behind t ↔ (t ++ [0]).length ≤ 512 ∧
      (overread c behind (t ++ [0])).take ((t ++ [0]).length - 509) = (t ++ [0]).drop 509 := by
  have hmsg : (t ++ [0]).length = t.length + 1 := by rw [List.length_append, List.length_singleton]
  have hframe := delivered_zero (c := c) (show t ++ [0] ≠ [] by simp)
  rcases Nat.lt_or_ge 512 (t ++ [0]).length with hlong | hshort
  · -- the length field tells another length
    have hlen : ((t ++ [0]).take (min ((t ++ [0]).length % 65536) 512)).length ≤ 512 := by
      rw [List.length_take]
      omega
    rw [comesBack_delivered behind hlen hframe]
    exact iff_of_false (fun h => by omega) fun h => by omega
  · have hmin : min ((t ++ [0]).length % 65536) 512 = (t ++ [0]).length := by omega
    rw [hmin, List.take_length] at hframe
    have hnul : (0 : UInt8) ∈ (segmentAt c (delivered c (t ++ [0])) behind startRecv).drop 3 := by
      have hlength := segmentAt_length (c := c) behind (delivered c (t ++ [0]))
      rw [segmentAt, List.length_append, zeros_length] at hlength
      rw [segmentAt, List.drop_append_of_le_length (by omega)]
      exact List.mem_append_right _ (List.mem_replicate.mpr ⟨by omega, rfl⟩)
    have hsplit := List.take_append_drop 509 (t ++ [0])
    rw [comesBack_delivered behind hshort hframe, text_eq_iff hnul ht, ← hmsg,
      segmentAt_data behind hshort hframe, and_iff_left rfl, and_iff_right hshort]
    constructor
    · exact fun h => (List.append_right_inj _).mp (h.trans hsplit.symm)
    · intro h
      rw [h, hsplit]

theorem comesBack_of_length_le {t : Bytes} (ht : (0 : UInt8) ∉ t) (hlen : t.length < 509) :
    ComesBack c behind t := by
  have hmsg : (t ++ [0]).length = t.length + 1 := by rw [List.length_append, List.length_singleton]
  rw [comesBack_iff behind ht, hmsg, Nat.sub_eq_zero_of_le hlen, List.take_zero,
    List.drop_of_length_le (by omega)]
  exact ⟨by omega, rfl⟩

end ComesBack

/-- A message of at most 509 bytes comes back, one of more than 512 does not, and for those
between it depends on what lies behind the receiver's buffer. -/
theorem message_roundtrip_iff (c : Des) (behind : ℕ → Fin 507 → UInt8) (t : Bytes)
    (ht : (0 : UInt8) ∉ t) :
    ComesBack c behind t ↔ t.length + 1 ≤ 509 ∨ t.length + 1 ≤ 512 ∧
      (overread c behind (t ++ [0])).take (t.length + 1 - 509) = (t ++ [0]).drop 509 := by
  have hlen : (t ++ [0]).length = t.length + 1 := by rw [List.length_append, List.length_singleton]
  rw [comesBack_iff behind ht, hlen]
  constructor
  · exact Or.inr
  · rintro (hshort | h)
    · refine ⟨by omega, ?_⟩
      rw [Nat.sub_eq_zero_of_le hshort, List.take_zero, List.drop_of_length_le (by omega)]
    · exact h

/-- Behind the buffer, a byte that makes the end of a message of 510 bytes come out as 0. -/
def luckyBehind : ℕ → Fin 507 → UInt8 := fun _ j => if j = 2 then 158 else 0

/-- 300 letters come back; of 509 letters the end is read from behind the buffer. -/
theorem message_roundtrip_iff_sample :
    ComesBack reverseBlocks (fun _ _ => 0) (List.replicate 300 97) ∧
      ComesBack reverseBlocks luckyBehind (List.replicate 509 97) ∧
      ¬ ComesBack reverseBlocks (fun _ _ => 0) (List.replicate 509 97) := by
  have hnul : ∀ n, (0 : UInt8) ∉ List.replicate n (97 : UInt8) := fun n h =>
    absurd (List.eq_of_mem_replicate h) (by decide)
  have hroundtrip := fun behind n =>
    message_roundtrip_iff reverseBlocks behind (List.replicate n 97) (hnul n)
  refine ⟨(hroundtrip _ 300).mpr (Or.inl (by decide +kernel)),
    (hroundtrip _ 509).mpr (Or.inr ⟨by decide +kernel, by decide +kernel⟩), fun h => ?_⟩
  rcases (hroundtrip _ 509).mp h with hshort | ⟨-, hread⟩
  · exact absurd hshort (by decide +kernel)
  · exact absurd hread (by decide +kernel)

/-- A message of 600 bytes does not come back. -/
theorem long_message_is_cut : ¬ ComesBack reverseBlocks (fun _ _ => 0) (List.replicate 599 97) := by
  have hnul : (0 : UInt8) ∉ List.replicate 599 (97 : UInt8) := fun h =>
    absurd (List.eq_of_mem_replicate h) (by decide)
  rw [comesBack_iff _ hnul, List.length_append, List.length_replicate]
  exact fun h => absurd h.1 (by decide)

end MemoryLeak.Cluster
