import MemoryLeak.Notify.Cipher
import MemoryLeak.Notify.ForwardQueue
import MemoryLeak.Notify.Table

/-!
# Draining the forward queue

`send_to_dst` over the chain it has taken: the lookup of each target, the choice
of the encryption, the datagram sent. The locals that one turn of the loop leaves
to the next are explicit, and a copy that leaves its buffer is a fault.
-/
namespace MemoryLeak.Notify
open MemoryLeak.CBytes MemoryLeak.Runs

/-- `aes_key` of the server. -/
def aesKey : Bytes :=
  [0xf0, 0xa1, 0xb3, 0xc0, 0xd5, 0x11, 0x13, 0x17, 0x70, 0xa2, 0xb5, 0x70, 0xd1, 0x1a, 0x12, 0x87,
   0x70, 0xa2, 0xb5, 0x70, 0xd1, 0x1a, 0x12, 0x87, 0x70, 0xa2, 0xb5, 0x70, 0xd1, 0x1a, 0x12, 0x87]

/-- `aes_iv`, the string `!@#$%^&*()(*&^%$#@!@#$%^&*(*&%$#@@@))`. -/
def aesIv : Bytes :=
  [33, 64, 35, 36, 37, 94, 38, 42, 40, 41, 40, 42, 38, 94, 37, 36, 35, 64, 33, 64, 35, 36, 37, 94,
   38, 42, 40, 42, 38, 37, 36, 35, 64, 64, 64, 41, 41]

/-- The first `AES_IV_BYTES` of `aes_iv`, all that is used of it. -/
def ivBytes : Bytes := aesIv.take aesIvBytes

@[simp] theorem aesKey_length : aesKey.length = aesBytes := rfl

@[simp] theorem ivBytes_length : ivBytes.length = aesIvBytes := rfl

/-- A taken item and the memory behind its message block, which a string read
can run into. -/
structure Taken where
  item : FwdItem
  behind : Bytes

/-- The memory at `hi->msg`. -/
def Taken.mem (q : Taken) : Bytes := q.item.msg ++ q.behind

/-- What the calls made for one queued message return. -/
structure Calls where
  getCliPub : Option RsaPub
  gcm : Gcm
  sendto : ℤ

/-- The locals of `send_to_dst` that live from one turn of its loop to the next.
Of the item at `t` only the address is read. -/
structure Carry where
  err : ℕ
  t : Option SockAddrIn
  sn : ℤ
  count : ℕ

/-- A call of `sendto` for the item at `index` of the chain. -/
structure Sent where
  index : ℕ
  item : FwdItem
  payload : Bytes
  ipv4 : SockAddrIn
  ret : ℤ

/-- The id whose owner gets the message. -/
def destId (m : Bytes) : Option Bytes :=
  if ifroute m = gNtfCli then some (devId m)
  else if ifroute m = fSrvCli then some (devId m)
  else if ifroute m = gNtfSrv then some (devId m)
  else if ifroute m = fSrvNtf then some (devId m)
  else if ifroute m = gCliNtf then some (ntfId m)
  else none

/-- `while (gr)`: the first item of the group with the id. -/
def findItem (iid : Bytes) (gr : List HashItem) : Option HashItem :=
  gr.find? fun it => decide (strncmp lenDevid iid (devId it.msg) = 0)

inductive Encoded where
  | fault
  /-- The `break` after a failed `msg_aes_enc`. -/
  | fail (err : ℕ) (sn : ℤ)
  | done (buffer : Bytes) (sn : ℤ) (err : ℕ)

/-- The switch on the type. A reply that could not be encrypted leaves `sn`. -/
def encodeMsg (w : Calls) (q : Taken) (buffer : Bytes) (sn : ℤ) (err : ℕ) : Encoded :=
  if msgType q.mem = msgGetAes then
    match w.getCliPub with
    | none => .done buffer sn 1
    | some pubkey =>
      if RsaEncFits pubkey q.item.msg then
        match rsaEnc pubkey q.item.msg with
        | none => .done buffer sn err
        | some out =>
          if out.length + 1 ≤ maxMsg + 1 then
            .done (memcpy (memcpy buffer 0 out) out.length [encryptCliPub]) (out.length + 1) err
          else .fault
      else .fault
  else if msgType q.mem = msgNtf then
    match msgAesEnc w.gcm aesKey ivBytes q.item.msg buffer (maxMsg + 1) with
    | none => .fail 1 0
    | some (buffer, n) => .done buffer n 0
  else if q.item.nMsg ≤ maxMsg + 1 then .done (memcpy buffer 0 q.item.msg) q.item.nMsg err
  else .fault

/-- One turn of `while (hi)`. With `clear` the item is freed and `t` cleared. -/
def sendIter (T : Table) (clear : Bool) (w : ℕ → Calls) (x : Taken × ℕ) (c : Carry) :
    Flow Carry Sent :=
  match destId x.1.mem with
  | none => .stop c
  | some iid =>
    let gr := (T (hashId iid)).group
    if gr = [] then .stop { c with err := 1 }
    else
      let t := match findItem iid gr with
        | some it => some it.ipv4
        | none => c.t
      match t with
      | none => .stop { c with err := 1 }
      | some ipv4 =>
        match encodeMsg (w x.2) x.1 (zeros (maxMsg + 1)) c.sn c.err with
        | .fault => .fault
        | .fail err sn => .stop { c with err := err, t := some ipv4, sn := sn }
        | .done buffer sn err =>
          let ret := (w x.2).sendto
          .next ⟨err, if clear then none else some noAddr, ret, c.count + 1⟩
            ⟨x.2, x.1.item, buffer.take sn.toNat, ipv4, ret⟩

/-- `send_to_dst` on the chain taken, `err` being its return value. -/
def sendToDst (T : Table) (clear : Bool) (w : ℕ → Calls) (chain : List Taken) :
    Option (Carry × List Sent) :=
  loop (sendIter T clear w) chain.zipIdx ⟨0, none, 0, 0⟩

/-! ### What one turn does -/

/-- The address of the registered item that the message is for. -/
def target (T : Table) (q : Taken) : Option SockAddrIn :=
  (destId q.mem).bind fun iid => (findItem iid (T (hashId iid)).group).map HashItem.ipv4

/-- The message as it has to leave the server, when its encryption succeeds. -/
def built (w : Calls) (q : Taken) : Option Bytes :=
  if msgType q.mem = msgGetAes then
    (w.getCliPub.bind (rsaEnc · q.item.msg)).map (· ++ [encryptCliPub])
  else if msgType q.mem = msgNtf then
    if q.item.nMsg + 1 + aesIvBytes ≤ maxMsg + 1 then
      (w.gcm.encrypt aesKey ivBytes q.item.msg).map fun ct =>
        ct.1 ++ ct.2 ++ [encryptAes]
    else none
  else some q.item.msg

/-- The message ends the loop: no item for its target, or a failed `msg_aes_enc`. -/
def Stops (T : Table) (w : ℕ → Calls) (x : Taken × ℕ) : Prop :=
  target T x.1 = none ∨ msgType x.1.mem = msgNtf ∧ built (w x.2) x.1 = none

/-- A reply whose key is missing or whose encryption fails. -/
def Stale (w : ℕ → Calls) (x : Taken × ℕ) : Prop :=
  msgType x.1.mem = msgGetAes ∧ built (w x.2) x.1 = none

/-- The message does not fit a buffer it is copied to. -/
def Overflows (w : ℕ → Calls) (x : Taken × ℕ) : Prop :=
  if msgType x.1.mem = msgGetAes then
    ∃ pubkey ∈ (w x.2).getCliPub, ¬ RsaEncFits pubkey x.1.item.msg ∨
      ∃ out ∈ rsaEnc pubkey x.1.item.msg, maxMsg + 1 < out.length + 1
  else msgType x.1.mem ≠ msgNtf ∧ maxMsg + 1 < x.1.item.nMsg

instance (T : Table) (w : ℕ → Calls) : DecidablePred (Stops T w) :=
  fun _ => inferInstanceAs (Decidable (_ ∨ _))

/-- The record of the call of `sendto` for `x`. -/
structure SentFor (T : Table) (w : ℕ → Calls) (x : Taken × ℕ) (s : Sent) : Prop where
  index : s.index = x.2
  item : s.item = x.1.item
  target : target T x.1 = some s.ipv4
  ret : s.ret = (w x.2).sendto
  payload : ∀ b, built (w x.2) x.1 = some b → s.payload = b

/-- The prefix of a cleared buffer after one copy to its start. -/
theorem memcpy_zeros_take (n : ℕ) (src : Bytes) :
    (memcpy (zeros n) 0 src).take src.length = src := by
  rw [memcpy_take_end (by omega) (by omega)]
  simp

theorem encodeMsg_fault {w : ℕ → Calls} {x : Taken × ℕ} (h : Overflows w x) (sn : ℤ) (err : ℕ) :
    encodeMsg (w x.2) x.1 (zeros (maxMsg + 1)) sn err = .fault := by
  rw [Overflows] at h
  rw [encodeMsg]
  split_ifs at h with htype
  · rw [if_pos htype]
    obtain ⟨pubkey, hkey, hbad⟩ := h
    rw [Option.mem_def] at hkey
    simp only [hkey]
    by_cases hfits : RsaEncFits pubkey x.1.item.msg
    · obtain ⟨out, hout, hlen⟩ := hbad.resolve_left (not_not.mpr hfits)
      rw [Option.mem_def] at hout
      simp only [if_pos hfits, hout, if_neg (not_le.mpr hlen)]
    · rw [if_neg hfits]
  · rw [if_neg htype, if_neg h.1, if_neg (not_le.mpr h.2)]

theorem encodeMsg_fail {w : Calls} {q : Taken} (htype : msgType q.mem = msgNtf)
    (hbuilt : built w q = none) (sn : ℤ) (err : ℕ) :
    encodeMsg w q (zeros (maxMsg + 1)) sn err = .fail 1 0 := by
  have hne : msgType q.mem ≠ msgGetAes := by rw [htype]; decide
  have hnone : msgAesEnc w.gcm aesKey ivBytes q.item.msg (zeros (maxMsg + 1))
      (maxMsg + 1) = none := by
    by_contra hsome
    obtain ⟨hfit, henc⟩ :=
      (msgAesEnc_isSome_iff _ _ _ _ _ _).mp (Option.isSome_iff_ne_none.mpr hsome)
    rw [q.item.size_eq] at hfit
    rw [built, if_neg hne, if_pos htype, if_pos hfit, Option.map_eq_none_iff] at hbuilt
    rw [hbuilt] at henc
    cases henc
  rw [encodeMsg, if_neg hne, if_pos htype]
  simp only [hnone]

/-- The switch leaves the message, encoded if that succeeds, in the buffer. -/
def Encodes (w : ℕ → Calls) (x : Taken × ℕ) (sn : ℤ) (err : ℕ) : Prop :=
  ∃ buffer sn' err', encodeMsg (w x.2) x.1 (zeros (maxMsg + 1)) sn err = .done buffer sn' err' ∧
    ∀ b, built (w x.2) x.1 = some b → buffer.take sn'.toNat = b

section Encode

variable {w : ℕ → Calls} {x : Taken × ℕ} (hfits : ¬ Overflows w x) (sn : ℤ) (err : ℕ)
include hfits

theorem encodes_getAes (hget : msgType x.1.mem = msgGetAes) : Encodes w x sn err := by
  simp only [Overflows, if_pos hget, Option.mem_def] at hfits
  push Not at hfits
  simp only [Encodes, encodeMsg, built, if_pos hget]
  cases hkey : (w x.2).getCliPub with
  | none => exact ⟨_, _, _, rfl, by simp⟩
  | some pubkey =>
    obtain ⟨hbuf, hlen⟩ := hfits pubkey hkey
    cases hout : rsaEnc pubkey x.1.item.msg with
    | none => exact ⟨_, _, _, by simp only [if_pos hbuf, hout]; rfl, by simp [hout]⟩
    | some out =>
      have hle := hlen out hout
      refine ⟨_, _, _, by simp only [if_pos hbuf, hout, if_pos hle]; rfl, ?_⟩
      intro b hb
      simp only [Option.bind_some, hout, Option.map_some, Option.some.injEq] at hb
      have hcopy : (memcpy (zeros (maxMsg + 1)) 0 out).length = maxMsg + 1 := by
        rw [memcpy_length (by simp at *; omega), zeros_length]
      rw [show ((out.length : ℤ) + 1).toNat = out.length + 1 by omega,
        memcpy_take_end (by rw [hcopy]; omega) (by simp), memcpy_zeros_take, hb]

theorem encodes_plain (hget : msgType x.1.mem ≠ msgGetAes) (hntf : msgType x.1.mem ≠ msgNtf) :
    Encodes w x sn err := by
  simp only [Overflows, if_neg hget, not_and, not_lt] at hfits
  have hle := hfits hntf
  simp only [Encodes, encodeMsg, built, if_neg hget, if_neg hntf, if_pos hle]
  refine ⟨_, _, _, rfl, ?_⟩
  intro b hb
  cases hb
  rw [Int.toNat_natCast, ← x.1.item.size_eq, memcpy_zeros_take]

omit hfits in
theorem encodes_ntf (hntf : msgType x.1.mem = msgNtf) (hbuilt : built (w x.2) x.1 ≠ none) :
    Encodes w x sn err := by
  have hget : msgType x.1.mem ≠ msgGetAes := by rw [hntf]; decide
  simp only [Encodes, encodeMsg, built, if_neg hget, if_pos hntf] at hbuilt ⊢
  split_ifs at hbuilt with hfit
  · have hsome : (msgAesEnc (w x.2).gcm aesKey ivBytes x.1.item.msg
        (zeros (maxMsg + 1)) (maxMsg + 1)).isSome := by
      rw [msgAesEnc_isSome_iff, x.1.item.size_eq]
      exact ⟨hfit, by simpa [Option.isSome_iff_ne_none] using hbuilt⟩
    obtain ⟨⟨b, n⟩, hb⟩ := Option.isSome_iff_exists.mp hsome
    obtain ⟨cipher, tag, henc, _, _, _, htake⟩ := msgAesEnc_take (by simp) hb
    refine ⟨b, n, 0, by simp only [hb], ?_⟩
    intro b' hb'
    simp only [if_pos hfit, henc, Option.map_some, Option.some.injEq] at hb'
    rw [Int.toNat_natCast, htake, hb']
  · exact absurd rfl hbuilt

/-- Unless it faults or fails, the switch leaves the encoded message in the buffer. -/
theorem encodeMsg_done (hok : msgType x.1.mem = msgNtf → built (w x.2) x.1 ≠ none) :
    Encodes w x sn err := by
  by_cases hget : msgType x.1.mem = msgGetAes
  · exact encodes_getAes hfits sn err hget
  · by_cases hntf : msgType x.1.mem = msgNtf
    · exact encodes_ntf sn err hntf (hok hntf)
    · exact encodes_plain hfits sn err hget hntf

end Encode

theorem encodeMsg_ne_fault {w : ℕ → Calls} {x : Taken × ℕ} (hfits : ¬ Overflows w x) (sn : ℤ)
    (err : ℕ) : encodeMsg (w x.2) x.1 (zeros (maxMsg + 1)) sn err ≠ .fault := by
  by_cases hfail : msgType x.1.mem = msgNtf ∧ built (w x.2) x.1 = none
  · rw [encodeMsg_fail hfail.1 hfail.2]
    simp
  · obtain ⟨buffer, sn', err', henc, _⟩ :=
      encodeMsg_done hfits sn err fun htype hnone => hfail ⟨htype, hnone⟩
    rw [henc]
    simp

/-- A turn of the loop faults only over a message that does not fit. -/
theorem sendIter_ne_fault {w : ℕ → Calls} {x : Taken × ℕ} (hfits : ¬ Overflows w x) (T : Table)
    (clear : Bool) (c : Carry) : sendIter T clear w x c ≠ .fault := by
  have henc := encodeMsg_ne_fault hfits c.sn c.err
  rw [sendIter]
  cases destId x.1.mem with
  | none => simp
  | some iid =>
    by_cases hgr : (T (hashId iid)).group = []
    · simp [hgr]
    · simp only [if_neg hgr]
      generalize (match findItem iid (T (hashId iid)).group with
        | some it => some it.ipv4
        | none => c.t) = t
      cases t with
      | none => simp
      | some ipv4 =>
        cases he : encodeMsg (w x.2) x.1 (zeros (maxMsg + 1)) c.sn c.err with
        | fault => exact absurd he henc
        | fail err sn => simp
        | done buffer sn err => simp

/-- Nothing is found for the target: the loop ends. -/
theorem sendIter_no_target {T : Table} {x : Taken × ℕ} (h : target T x.1 = none) (w : ℕ → Calls)
    {c : Carry} (hc : c.t = none) :
    ∃ c', sendIter T true w x c = .stop c' ∧ c'.count = c.count := by
  rw [sendIter]
  cases hdest : destId x.1.mem with
  | none => exact ⟨c, rfl, rfl⟩
  | some iid =>
    have hfind : findItem iid (T (hashId iid)).group = none := by simpa [target, hdest] using h
    by_cases hgr : (T (hashId iid)).group = []
    · exact ⟨{ c with err := 1 }, by simp only [if_pos hgr], rfl⟩
    · exact ⟨⟨1, none, c.sn, c.count⟩, by simp only [if_neg hgr, hfind, hc], rfl⟩

/-- With an item for the target, the turn is that of the switch on the type. -/
theorem sendIter_target {T : Table} {x : Taken × ℕ} {ipv4 : SockAddrIn}
    (h : target T x.1 = some ipv4) (clear : Bool) (w : ℕ → Calls) (c : Carry) :
    sendIter T clear w x c =
      match encodeMsg (w x.2) x.1 (zeros (maxMsg + 1)) c.sn c.err with
      | .fault => .fault
      | .fail err sn => .stop { c with err := err, t := some ipv4, sn := sn }
      | .done buffer sn err =>
        .next ⟨err, if clear then none else some noAddr, (w x.2).sendto, c.count + 1⟩
          ⟨x.2, x.1.item, buffer.take sn.toNat, ipv4, (w x.2).sendto⟩ := by
  rw [target, Option.bind_eq_some_iff] at h
  obtain ⟨iid, hdest, hmap⟩ := h
  rw [Option.map_eq_some_iff] at hmap
  obtain ⟨it, hfind, rfl⟩ := hmap
  have hgr : (T (hashId iid)).group ≠ [] := by
    intro hnil
    simp [findItem, hnil] at hfind
  simp only [sendIter, hdest, if_neg hgr, hfind]

section Loop

variable {T : Table} {w : ℕ → Calls} {x : Taken × ℕ} {c : Carry} {n : ℕ}

/-- What holds between the turns: `t` is clear and `count` counts the calls of
`sendto`. -/
def Between (n : ℕ) (c : Carry) : Prop := c.t = none ∧ c.count = n

theorem sendIter_stop (hc : Between n c) (h : Stops T w x) :
    ∃ c', sendIter T true w x c = .stop c' ∧ c'.count = n := by
  cases htarget : target T x.1 with
  | none =>
    obtain ⟨c', hiter, hcount⟩ := sendIter_no_target htarget w hc.1
    exact ⟨c', hiter, hcount.trans hc.2⟩
  | some ipv4 =>
    obtain ⟨htype, hbuilt⟩ : msgType x.1.mem = msgNtf ∧ built (w x.2) x.1 = none := by
      simpa [Stops, htarget] using h
    rw [sendIter_target htarget, encodeMsg_fail htype hbuilt]
    exact ⟨_, rfl, hc.2⟩

theorem target_of_not_stops (h : ¬ Stops T w x) : ∃ ipv4, target T x.1 = some ipv4 := by
  rw [← Option.isSome_iff_exists, Option.isSome_iff_ne_none]
  exact fun hnone => h (Or.inl hnone)

theorem sendIter_fault (h : ¬ Stops T w x) (hover : Overflows w x) :
    sendIter T true w x c = .fault := by
  obtain ⟨ipv4, htarget⟩ := target_of_not_stops h
  rw [sendIter_target htarget, encodeMsg_fault hover]

theorem sendIter_next (hc : Between n c) (h : ¬ Stops T w x) (hfits : ¬ Overflows w x) :
    ∃ c' s, sendIter T true w x c = .next c' s ∧ Between (n + 1) c' ∧ SentFor T w x s := by
  obtain ⟨ipv4, htarget⟩ := target_of_not_stops h
  obtain ⟨buffer, sn, err, henc, hpayload⟩ :=
    encodeMsg_done hfits c.sn c.err fun htype hnone => h (Or.inr ⟨htype, hnone⟩)
  rw [sendIter_target htarget, henc]
  exact ⟨_, _, rfl, ⟨rfl, by simp [hc.2]⟩, rfl, rfl, htarget, rfl, hpayload⟩

/-- A notification that does not end the loop is encrypted. -/
theorem ntf_encrypted (h : ¬ Stops T w x) (htype : msgType x.1.mem = msgNtf) :
    ∃ cipher tag, (w x.2).gcm.encrypt aesKey ivBytes x.1.item.msg = some (cipher, tag) ∧
      built (w x.2) x.1 = some (cipher ++ tag ++ [encryptAes]) := by
  have hne : msgType x.1.mem ≠ msgGetAes := by rw [htype]; decide
  have hbuilt : built (w x.2) x.1 ≠ none := fun hnone => h (Or.inr ⟨htype, hnone⟩)
  simp only [built, if_neg hne, if_pos htype] at hbuilt ⊢
  split_ifs at hbuilt with hfit
  · obtain ⟨⟨cipher, tag⟩, henc⟩ := Option.ne_none_iff_exists'.mp (by simpa using hbuilt)
    exact ⟨cipher, tag, henc, by rw [if_pos hfit, henc]; rfl⟩
  · exact absurd rfl hbuilt

/-- A drain is defined when no message reached overflows, and then makes one call
of `sendto` for each of them, in order. -/
theorem sendToDst_some {chain : List Taken}
    (h : ∀ x ∈ reached (Stops T w) chain.zipIdx, ¬ Overflows w x) :
    ∃ c outs, sendToDst T true w chain = some (c, outs) ∧
      List.Forall₂ (SentFor T w) (reached (Stops T w) chain.zipIdx) outs ∧
      c.count = outs.length := by
  have hstop : ∀ x c n, Between n c → Stops T w x →
      ∃ c', sendIter T true w x c = .stop c' ∧ c'.count = n :=
    fun _ _ _ hc hx => sendIter_stop hc hx
  have hnext : ∀ x c n, Between n c → ¬ Stops T w x → ¬ Overflows w x →
      ∃ c' s, sendIter T true w x c = .next c' s ∧ Between (n + 1) c' ∧ SentFor T w x s :=
    fun _ _ _ hc hx hf => sendIter_next hc hx hf
  obtain ⟨c, outs, hloop, hall, hcount⟩ := loop_outputs (J := fun n c => c.count = n)
    (fun _ _ hc => hc.2) hstop hnext (s := ⟨0, none, 0, 0⟩) ⟨rfl, rfl⟩ h
  exact ⟨c, outs, hloop, hall, by rw [hcount, Nat.zero_add]⟩

theorem sendToDst_none {chain : List Taken}
    (h : ∃ x ∈ reached (Stops T w) chain.zipIdx, Overflows w x) :
    sendToDst T true w chain = none := by
  have hfault : ∀ x c n, Between n c → ¬ Stops T w x → Overflows w x →
      sendIter T true w x c = .fault :=
    fun _ _ _ _ hx hf => sendIter_fault hx hf
  have hnext : ∀ x c n, Between n c → ¬ Stops T w x → ¬ Overflows w x →
      ∃ c' s, sendIter T true w x c = .next c' s ∧ Between (n + 1) c' ∧ SentFor T w x s :=
    fun _ _ _ hc hx hf => sendIter_next hc hx hf
  exact loop_eq_none hfault hnext (s := ⟨0, none, 0, 0⟩) ⟨rfl, rfl⟩ h

/-- What a drain that stays in its buffers has done. -/
theorem sendToDst_spec {chain : List Taken} {outs : List Sent}
    (h : sendToDst T true w chain = some (c, outs)) :
    (∀ x ∈ reached (Stops T w) chain.zipIdx, ¬ Overflows w x) ∧
      List.Forall₂ (SentFor T w) (reached (Stops T w) chain.zipIdx) outs ∧
      c.count = outs.length := by
  have hfits : ∀ x ∈ reached (Stops T w) chain.zipIdx, ¬ Overflows w x := by
    intro x hx hover
    rw [sendToDst_none ⟨x, hx, hover⟩] at h
    cases h
  obtain ⟨c', outs', hrun, hall, hcount⟩ := sendToDst_some hfits
  cases h.symm.trans hrun
  exact ⟨hfits, hall, hcount⟩

end Loop

end MemoryLeak.Notify
