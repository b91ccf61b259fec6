import MemoryLeak.Notify.Dump
import MemoryLeak.Notify.Routing

/-!
# The receive loop of the server

One turn of the loop of `main` in the server: the decoding of a datagram, the
routing of the message, and what it puts on the forward queue. A write outside
one of the two 1201-byte buffers leaves the turn without an outcome. The bounds of
a whole turn, and of the later drain of what it queued, hold under an exact
condition.
-/
namespace MemoryLeak.Notify
open MemoryLeak.CBytes MemoryLeak.Runs

/-- What the calls made for one datagram return. -/
structure RecvCalls where
  getSrvPrv : Option RsaPrv
  gcm : Gcm

/-- A queued item; `keyed` records that the server appended its key. -/
structure Queued where
  item : FwdItem
  keyed : Bool

/-- Where `recvfrom` puts a datagram, whose length is then `min d.length (MAX_MSG + 1)`. -/
def recvBuf (d : Bytes) : Bytes := memcpy (zeros (maxMsg + 1)) 0 (d.take (maxMsg + 1))

inductive Decoded where
  | fault
  /-- A `continue`, with what `bufout` then holds. -/
  | ignored (bufout : Bytes)
  /-- `n` bytes at `pglobal`, which is `buffer` or `bufout`. -/
  | message (inBufout : Bool) (p : Bytes) (n : ℕ)

/-- The decoding by the last byte. A failed `rsa_dec` leaves the datagram as it is. -/
def decode (w : RecvCalls) (buffer bufout : Bytes) (n : ℕ) : Decoded :=
  let enc := byteAt buffer (n - 1)
  if enc = encryptSrvPub then
    match w.getSrvPrv with
    | none => .ignored bufout
    | some prv =>
      match rsaDec prv (buffer.take (n - 1)) with
      | none => .message false buffer n
      | some out =>
        if out.length ≤ maxMsg + 1 then
          .message false (memcpy (zeros (maxMsg + 1)) 0 out) out.length
        else .fault
  else if enc = encryptAes then
    match msgAesDec w.gcm aesKey ivBytes buffer bufout n (maxMsg + 1) with
    | (bufout, none) => .ignored bufout
    | (bufout, some n) => .message true bufout n
  else .message false buffer n

/-- `add_to_imd_fwd(p, &imd_fwd_lt, n)`. -/
def addToImdFwd (p : Bytes) (n : ℕ) (keyed : Bool) : Option Queued :=
  if h : n ≤ p.length then some ⟨newItem p n h, keyed⟩ else none

/-- The buffer after the route and the length are set and the key appended. -/
def appendKey (p : Bytes) (n : ℕ) (route : UInt8) : Bytes :=
  let p := setLen (setIfroute p route) (uint16ToArr 48 lenU16int)
  memcpy (memcpy p n aesKey) (n + aesBytes) ivBytes

/-- The branches for `G_CLI_SRV` and `G_NTF_SRV`. -/
def replyKey (p : Bytes) (n : ℕ) (route : UInt8) : Option (Bytes × Option Queued) :=
  if n + aesBytes + aesIvBytes ≤ p.length then
    (addToImdFwd (appendKey p n route) (n + aesBytes + aesIvBytes) true).map fun q =>
      (appendKey p n route, some q)
  else none

/-- The switch on the route: the message afterwards and what is queued. -/
def routeMsg (p : Bytes) (n : ℕ) : Option (Bytes × Option Queued) :=
  if ifroute p = gNtfCli ∨ ifroute p = gCliNtf then
    if msgType p = msgNtf then (addToImdFwd p n false).map fun q => (p, some q)
    else some (p, none)
  else if ifroute p = gCliSrv then replyKey p n fSrvCli
  else if ifroute p = gNtfSrv then replyKey p n fSrvNtf
  else some (p, none)

/-- One turn of the loop on the datagram `d`: `bufout` afterwards and what is
queued. -/
def mainTurn (w : RecvCalls) (bufout d : Bytes) : Option (Bytes × Option Queued) :=
  let n := min d.length (maxMsg + 1)
  if n < 1 then some (bufout, none)
  else if n < sizeofMsgCommon then some (bufout, none)
  else
    match decode w (recvBuf d) bufout n with
    | .fault => none
    | .ignored bufout => some (bufout, none)
    | .message inBufout p n =>
      (routeMsg p n).map fun r => (if inBufout then r.1 else bufout, r.2)

/-! ### Decoded messages -/

theorem recvBuf_length (d : Bytes) : (recvBuf d).length = maxMsg + 1 := by
  rw [recvBuf, memcpy_length (by simp), zeros_length]

theorem msgAesDec_length (G : Gcm) (key iv : Bytes) {inp buf : Bytes} {lenin lim : ℕ}
    (hbuf : lim ≤ buf.length) (hinp : lenin ≤ inp.length) :
    (msgAesDec G key iv inp buf lenin lim).1.length = buf.length ∧
      ∀ n, (msgAesDec G key iv inp buf lenin lim).2 = some n → n + aesIvBytes + 1 = lenin := by
  rw [msgAesDec]
  split_ifs with h1 h2 h3
  · simp
  · simp
  · simp
  · have hlen := G.decrypt_length key iv (inp.take (lenin - 1 - aesIvBytes))
      ((inp.drop (lenin - 1 - aesIvBytes)).take aesIvBytes)
    rw [List.length_take, Nat.min_eq_left (by omega)] at hlen
    constructor
    · exact memcpy_length (by omega)
    · intro n hn
      simp only [aesIvBytes] at *
      split_ifs at hn with hok
      simp only [Option.some.injEq] at hn
      omega

/-- A decoded message lies in a whole buffer, and one decrypted by RSA is followed
by cleared bytes. -/
theorem decode_message {w : RecvCalls} {buffer bufout p : Bytes} {n m : ℕ} {inBufout : Bool}
    (hbuffer : buffer.length = maxMsg + 1) (hbufout : bufout.length = maxMsg + 1)
    (hn : sizeofMsgCommon ≤ n) (hle : n ≤ maxMsg + 1)
    (h : decode w buffer bufout n = .message inBufout p m) :
    p.length = maxMsg + 1 ∧ 0 < m ∧ m ≤ maxMsg + 1 ∧ (m < 2 → ifroute p = 0) := by
  simp only [sizeofMsgCommon, maxMsg] at *
  rw [decode] at h
  split_ifs at h with hsrv haes
  · cases hprv : w.getSrvPrv with
    | none => simp [hprv] at h
    | some prv =>
      simp only [hprv] at h
      cases hdec : rsaDec prv (buffer.take (n - 1)) with
      | none =>
        simp only [hdec, Decoded.message.injEq] at h
        obtain ⟨_, rfl, rfl⟩ := h
        omega
      | some out =>
        simp only [hdec] at h
        split_ifs at h with hfit
        simp only [Decoded.message.injEq] at h
        obtain ⟨_, rfl, rfl⟩ := h
        have hpos : 0 < out.length := by
          rw [rsaDec] at hdec
          split_ifs at hdec
          exact prv.decrypt_pos _ _ hdec
        refine ⟨by rw [memcpy_length (by simp at *; omega)]; simp, hpos, by simpa using hfit, ?_⟩
        intro hone
        rw [ifroute, byteAt_memcpy_of_ge (by simp) (by simp; omega)]
        simp [byteAt_zeros]
  · have hlen := msgAesDec_length w.gcm aesKey ivBytes
      (show maxMsg + 1 ≤ bufout.length by simp [hbufout]) (show n ≤ buffer.length by omega)
    generalize msgAesDec w.gcm aesKey ivBytes buffer bufout n (maxMsg + 1) = r at *
    obtain ⟨b, o⟩ := r
    cases o with
    | none => simp at h
    | some m' =>
      simp only [Decoded.message.injEq] at h
      obtain ⟨_, rfl, rfl⟩ := h
      have hm := hlen.2 m' rfl
      have hb := hlen.1
      simp only [aesIvBytes] at *
      omega
  · simp only [Decoded.message.injEq] at h
    obtain ⟨_, rfl, rfl⟩ := h
    omega

theorem decode_ignored {w : RecvCalls} {buffer bufout b : Bytes} {n : ℕ}
    (hbufout : bufout.length = maxMsg + 1) (hn : n ≤ buffer.length)
    (h : decode w buffer bufout n = .ignored b) : b.length = maxMsg + 1 := by
  rw [decode] at h
  split_ifs at h with hsrv haes
  · cases hprv : w.getSrvPrv with
    | none =>
      simp only [hprv, Decoded.ignored.injEq] at h
      rw [← h, hbufout]
    | some prv =>
      cases hdec : rsaDec prv (buffer.take (n - 1)) with
      | none => simp [hprv, hdec] at h
      | some out =>
        simp only [hprv, hdec] at h
        split_ifs at h
  · have hlen := (msgAesDec_length w.gcm aesKey ivBytes hbufout.ge hn).1
    generalize msgAesDec w.gcm aesKey ivBytes buffer bufout n (maxMsg + 1) = r at *
    obtain ⟨b', o⟩ := r
    cases o with
    | none =>
      simp only [Decoded.ignored.injEq] at h
      rw [← h, ← hbufout]
      exact hlen
    | some m => simp at h

/-- Only a text decrypted by RSA can be too long for its buffer. -/
theorem decode_eq_fault_iff (w : RecvCalls) (buffer bufout : Bytes) (n : ℕ) :
    decode w buffer bufout n = .fault ↔ byteAt buffer (n - 1) = encryptSrvPub ∧
      ∃ prv ∈ w.getSrvPrv, ∃ out ∈ rsaDec prv (buffer.take (n - 1)), maxMsg + 1 < out.length := by
  rw [decode]
  by_cases hsrv : byteAt buffer (n - 1) = encryptSrvPub
  · simp only [hsrv, true_and, Option.mem_def]
    cases hprv : w.getSrvPrv with
    | none => simp
    | some prv =>
      cases hdec : rsaDec prv (buffer.take (n - 1)) with
      | none => simp [hdec]
      | some out =>
        by_cases hfit : out.length ≤ maxMsg + 1
        · simp [hdec, hfit]
        · simp [hdec, hfit]
          simpa using hfit
  · simp only [hsrv, false_and, iff_false]
    by_cases haes : byteAt buffer (n - 1) = encryptAes
    · rw [if_pos haes]
      generalize msgAesDec w.gcm aesKey ivBytes buffer bufout n (maxMsg + 1) = r
      obtain ⟨b, o⟩ := r
      cases o <;> simp
    · rw [if_neg haes]
      simp

/-! ### Queued messages -/

/-- The message with its route and length set, before the key is appended. -/
def setReply (p : Bytes) (route : UInt8) : Bytes :=
  setLen (setIfroute p route) (uint16ToArr 48 lenU16int)

section AppendKey

variable {p : Bytes} {n : ℕ} (route : UInt8)

theorem setIfroute_length (hp : p.length = maxMsg + 1) :
    (setIfroute p route).length = maxMsg + 1 := by
  rw [setIfroute, memcpy_length (by rw [hp]; simp), hp]

theorem setReply_length (hp : p.length = maxMsg + 1) : (setReply p route).length = maxMsg + 1 := by
  have h1 := setIfroute_length route hp
  rw [setReply, setLen, memcpy_length (by rw [h1]; simp), h1]

/-- The key and the iv are one copy behind the message. -/
theorem appendKey_eq (hp : p.length = maxMsg + 1) (hn : n + 48 ≤ maxMsg + 1) :
    appendKey p n route = memcpy (setReply p route) n (aesKey ++ ivBytes) := by
  have hlen := setReply_length route hp
  have hfront : (memcpy (setReply p route) n aesKey).take (n + aesBytes) =
      (setReply p route).take n ++ aesKey := memcpy_take_end (by omega) (by simp)
  have hback : (memcpy (setReply p route) n aesKey).drop (n + aesBytes + aesIvBytes) =
      (setReply p route).drop (n + aesBytes + aesIvBytes) := by
    rw [← List.drop_drop, memcpy_drop_end (by omega) (by simp), List.drop_drop]
  rw [show appendKey p n route = memcpy (memcpy (setReply p route) n aesKey) (n + aesBytes)
    ivBytes from rfl, memcpy, hfront, ivBytes_length, hback, memcpy]
  simp

theorem appendKey_length (hp : p.length = maxMsg + 1) (hn : n + 48 ≤ maxMsg + 1) :
    (appendKey p n route).length = maxMsg + 1 := by
  have hlen := setReply_length route hp
  have hfit : n + (aesKey ++ ivBytes).length ≤ (setReply p route).length := by
    rw [hlen]
    simpa using hn
  rw [appendKey_eq route hp hn, memcpy_length hfit, hlen]

/-- The first two bytes of the queued reply. -/
theorem appendKey_byteAt (hp : p.length = maxMsg + 1) (hn : n + 48 ≤ maxMsg + 1) {i : ℕ}
    (hi : i < n) (hi2 : i < 2) (behind : Bytes) :
    byteAt ((appendKey p n route).take (n + aesBytes + aesIvBytes) ++ behind) i =
      if i = 1 then route else byteAt p i := by
  have hlen := setReply_length route hp
  have hroute := setIfroute_length route hp
  rw [byteAt_append_left _ _ (by rw [List.length_take, appendKey_length route hp hn]; simp; omega),
    byteAt_take _ (by omega), appendKey_eq route hp hn, byteAt_memcpy_of_lt hi (by omega),
    setReply, setLen, byteAt_memcpy_of_lt (by simp; omega) (by rw [hroute]; simp), setIfroute]
  split_ifs with h1
  · rw [byteAt_memcpy_of_mem (by rw [hp]; simp) (by simp [h1]) (by simp [h1])]
    simp [h1, byteAt]
  · rw [byteAt_memcpy_of_lt (by simp; omega) (by rw [hp]; simp)]

end AppendKey

/-- The reply is queued exactly when the key fits behind the message. -/
theorem replyKey_cases {p : Bytes} {n : ℕ} (route : UInt8) (hp : p.length = maxMsg + 1) :
    (n + aesBytes + aesIvBytes ≤ maxMsg + 1 ∧ ∃ q : Queued,
      replyKey p n route = some (appendKey p n route, some q) ∧ q.keyed = true ∧
        q.item.msg = (appendKey p n route).take (n + aesBytes + aesIvBytes)) ∨
    (¬ n + aesBytes + aesIvBytes ≤ maxMsg + 1 ∧ replyKey p n route = none) := by
  rw [replyKey, hp]
  by_cases hfit : n + aesBytes + aesIvBytes ≤ maxMsg + 1
  · have hle : n + aesBytes + aesIvBytes ≤ (appendKey p n route).length := by
      rw [appendKey_length route hp hfit]
      exact hfit
    exact Or.inl ⟨hfit, ⟨newItem _ _ hle, true⟩, by
      simp only [if_pos hfit, addToImdFwd, dif_pos hle, Option.map_some], rfl, rfl⟩
  · exact Or.inr ⟨hfit, by rw [if_neg hfit]⟩

/-- What a queued reply consists of. -/
theorem replyKey_item {p : Bytes} {n : ℕ} {route : UInt8} {b : Bytes} {q : Queued}
    (hp : p.length = maxMsg + 1) (h : replyKey p n route = some (b, some q)) :
    n + aesBytes + aesIvBytes ≤ maxMsg + 1 ∧ b = appendKey p n route ∧ q.keyed = true ∧
      q.item.msg = (appendKey p n route).take (n + aesBytes + aesIvBytes) := by
  rcases replyKey_cases (n := n) route hp with ⟨hfit, q', hreply, hkeyed, hmsg⟩ | ⟨_, hnone⟩
  · rw [hreply] at h
    cases h
    exact ⟨hfit, rfl, hkeyed, hmsg⟩
  · rw [hnone] at h
    cases h

/-- The reply has the type of the request and the route set. -/
theorem replyKey_header {p : Bytes} {n : ℕ} {route : UInt8} {b : Bytes} {q : Queued}
    (hp : p.length = maxMsg + 1) (hn : 2 ≤ n) (h : replyKey p n route = some (b, some q))
    (behind : Bytes) :
    msgType (q.item.msg ++ behind) = msgType p ∧ ifroute (q.item.msg ++ behind) = route := by
  obtain ⟨hfit, _, _, hmsg⟩ := replyKey_item hp h
  rw [hmsg]
  exact ⟨appendKey_byteAt route hp hfit (by omega) (by omega) behind,
    appendKey_byteAt route hp hfit hn (by decide) behind⟩

/-- The reply is the message with its route and length set, and the key behind it. -/
theorem replyKey_msg {p : Bytes} {n : ℕ} {route : UInt8} {b : Bytes} {q : Queued}
    (hp : p.length = maxMsg + 1) (h : replyKey p n route = some (b, some q)) :
    q.item.msg = (setReply p route).take n ++ (aesKey ++ ivBytes) := by
  obtain ⟨hfit, _, _, hmsg⟩ := replyKey_item hp h
  have hend : n + aesBytes + aesIvBytes = n + (aesKey ++ ivBytes).length := by
    simp [Nat.add_assoc]
  have hset := setReply_length route hp
  rw [hmsg, appendKey_eq route hp hfit, memcpy_take_end (by omega) hend]

/-- The reply ends with the key and the iv. -/
theorem replyKey_drop {p : Bytes} {n : ℕ} {route : UInt8} {b : Bytes} {q : Queued}
    (hp : p.length = maxMsg + 1) (h : replyKey p n route = some (b, some q)) :
    q.item.msg.drop n = aesKey ++ ivBytes := by
  obtain ⟨hfit, _⟩ := replyKey_item hp h
  have hfront : ((setReply p route).take n).length = n := by
    rw [List.length_take, setReply_length route hp]
    omega
  rw [replyKey_msg hp h, List.drop_left' hfront]

/-- A notification is queued as it is. -/
theorem routeMsg_ntf {p : Bytes} {n : ℕ} (hroute : ifroute p = gNtfCli) (htype : msgType p = msgNtf)
    (hn : n ≤ p.length) : routeMsg p n = some (p, some ⟨newItem p n hn, false⟩) := by
  simp only [routeMsg, if_pos (Or.inl hroute), if_pos htype, addToImdFwd, dif_pos hn,
    Option.map_some]

/-- Everything the switch on the route can do. -/
theorem routeMsg_cases {p : Bytes} {n : ℕ} (hp : p.length = maxMsg + 1) (hn : n ≤ maxMsg + 1) :
    (∃ q : Queued, routeMsg p n = some (p, some q) ∧ q.item.msg = p.take n ∧ q.keyed = false ∧
      msgType p = msgNtf ∧ (ifroute p = gNtfCli ∨ ifroute p = gCliNtf)) ∨
    (routeMsg p n = some (p, none) ∧ ifroute p ≠ gCliSrv ∧ ifroute p ≠ gNtfSrv) ∨
    (ifroute p = gCliSrv ∧ routeMsg p n = replyKey p n fSrvCli) ∨
    (ifroute p = gNtfSrv ∧ routeMsg p n = replyKey p n fSrvNtf) := by
  rw [routeMsg]
  by_cases hfwd : ifroute p = gNtfCli ∨ ifroute p = gCliNtf
  · have hother : ifroute p ≠ gCliSrv ∧ ifroute p ≠ gNtfSrv := by
      rcases hfwd with h | h <;> rw [h] <;> decide
    by_cases htype : msgType p = msgNtf
    · have hle : n ≤ p.length := by omega
      exact Or.inl ⟨⟨newItem p n hle, false⟩, by simp [hfwd, htype, addToImdFwd, hle], rfl, rfl,
        htype, hfwd⟩
    · exact Or.inr (Or.inl ⟨by simp [hfwd, htype], hother⟩)
  · rw [if_neg hfwd]
    by_cases hcli : ifroute p = gCliSrv
    · exact Or.inr (Or.inr (Or.inl ⟨hcli, by rw [if_pos hcli]⟩))
    · rw [if_neg hcli]
      by_cases hntf : ifroute p = gNtfSrv
      · exact Or.inr (Or.inr (Or.inr ⟨hntf, by rw [if_pos hntf]⟩))
      · exact Or.inr (Or.inl ⟨by rw [if_neg hntf], hcli, hntf⟩)

/-! ### Bounds of a turn -/

/-- A datagram of at least a header that fits the receive buffer. -/
structure Datagram where
  bytes : Bytes
  header_le : sizeofMsgCommon ≤ bytes.length
  le : bytes.length ≤ maxMsg + 1

section Bounds

variable (w : RecvCalls) (bufout : Vector UInt8 (maxMsg + 1)) (d : Datagram) (stack : Bytes)
  (sw : Calls)

/-- The message a turn decodes from its datagram. -/
def DecodesTo (inBufout : Bool) (p : Bytes) (n : ℕ) : Prop :=
  decode w (recvBuf d.bytes) bufout.toList d.bytes.length = .message inBufout p n

/-- The turn writes inside its buffers, `dum_msg` stays inside its tables and its
text buffer, and no later drain of the item queued leaves its buffers. Behind the
decoded buffer the stack holds `stack`. -/
def TurnInBounds : Prop :=
  ∃ r, mainTurn w bufout.toList d.bytes = some r ∧
    (∀ inBufout p n, DecodesTo w bufout d inBufout p n →
      (dumMsg "server.c" "main" 352 (p ++ stack)).isSome) ∧
    ∀ q ∈ r.2, ∀ T c behind, sendIter T true (fun _ => sw) (⟨q.item, behind⟩, 0) c ≠ .fault

/-- The text decrypted by RSA fits the receive buffer. -/
def RsaTextFits : Prop :=
  byteAt (recvBuf d.bytes) (d.bytes.length - 1) = encryptSrvPub → ∀ prv ∈ w.getSrvPrv,
    ∀ out ∈ rsaDec prv ((recvBuf d.bytes).take (d.bytes.length - 1)), out.length ≤ maxMsg + 1

/-- The request for a key leaves room for it, and the encrypted reply and its
trailer fit the buffer of the drain. -/
def ReplyFits (p : Bytes) (n : ℕ) : Prop :=
  n + aesBytes + aesIvBytes ≤ maxMsg + 1 ∧
    (msgType p = msgGetAes → ∀ pubkey ∈ sw.getCliPub,
      (rsaEnc pubkey ((appendKey p n fSrvCli).take (n + aesBytes + aesIvBytes))).isSome →
        pubkey.size < maxMsg + 1)

/-- The datagrams whose turn stays in bounds. -/
structure TurnFits : Prop where
  text : RsaTextFits w d
  dum : ∀ inBufout p n, DecodesTo w bufout d inBufout p n →
    DumFits "server.c" "main" 352 (p ++ stack)
  reply : ∀ inBufout p n, DecodesTo w bufout d inBufout p n → ifroute p = gCliSrv →
    ReplyFits sw p n

variable {w bufout d stack sw}

theorem mainTurn_eq : mainTurn w bufout.toList d.bytes =
    match decode w (recvBuf d.bytes) bufout.toList d.bytes.length with
    | .fault => none
    | .ignored bufout => some (bufout, none)
    | .message inBufout p n =>
      (routeMsg p n).map fun r => (if inBufout then r.1 else bufout.toList, r.2) := by
  have h1 := d.header_le
  have h2 := d.le
  have hmin : min d.bytes.length (maxMsg + 1) = d.bytes.length := Nat.min_eq_left h2
  simp only [mainTurn, hmin]
  rw [if_neg (by simp at h1; omega), if_neg (by omega)]

theorem DecodesTo.spec {inBufout : Bool} {p : Bytes} {n : ℕ}
    (h : DecodesTo w bufout d inBufout p n) :
    p.length = maxMsg + 1 ∧ 0 < n ∧ n ≤ maxMsg + 1 ∧ (n < 2 → ifroute p = 0) :=
  decode_message (recvBuf_length d.bytes) (by simp) d.header_le d.le h

/-- Some table leads to the encryption of a message that has a target id. -/
theorem exists_target {q : Taken} {iid : Bytes} (h : destId q.mem = some iid) :
    ∃ T ipv4, target T q = some ipv4 := by
  refine ⟨fun _ => ⟨1, [⟨noAddr, 0 :: 0 :: iid⟩]⟩, noAddr, ?_⟩
  have hdev : devId (0 :: 0 :: iid) = iid := rfl
  have hself : strncmp lenDevid iid iid = 0 := (strncmp_eq_zero_iff _ _ _).mpr rfl
  simp [target, h, findItem, hdev, hself]

theorem not_overflows_of_ntf {q : Taken} (htype : msgType q.mem = msgNtf) (k : ℕ) :
    ¬ Overflows (fun _ => sw) (q, k) := by
  have hne : msgType q.mem ≠ msgGetAes := by rw [htype]; decide
  rw [Overflows, if_neg hne]
  exact fun h => h.1 htype

/-- A queued reply overflows the drain exactly when its encryption is too long. -/
theorem reply_overflows_iff {p : Bytes} {n : ℕ} {route : UInt8} {b : Bytes} {q : Queued}
    (hp : p.length = maxMsg + 1) (hn : 2 ≤ n) (h : replyKey p n route = some (b, some q))
    (behind : Bytes) :
    Overflows (fun _ => sw) (⟨q.item, behind⟩, 0) ↔ msgType p = msgGetAes ∧
      ∃ pubkey ∈ sw.getCliPub,
        (rsaEnc pubkey ((appendKey p n route).take (n + aesBytes + aesIvBytes))).isSome ∧
          maxMsg + 1 ≤ pubkey.size := by
  obtain ⟨hfit, _, _, hmsg⟩ := replyKey_item hp h
  have hlen : q.item.msg.length = n + aesBytes + aesIvBytes := by
    rw [hmsg, List.length_take, appendKey_length route hp hfit, Nat.min_eq_left hfit]
  have hmem : msgType (⟨q.item, behind⟩ : Taken).mem = msgType p :=
    (replyKey_header hp hn h behind).1
  have hpos : 0 < q.item.msg.length := by omega
  by_cases hget : msgType p = msgGetAes
  · simp only [Overflows, hmem, hget, true_and, Option.mem_def]
    constructor
    · rintro ⟨pubkey, hkey, hbad⟩
      obtain ⟨out, hout, hlong⟩ := hbad.resolve_left (not_not.mpr (rsaEncFits_of_pos pubkey hpos))
      rw [hmsg] at hout
      rw [(rsaEnc_length hout).1] at hlong
      exact ⟨pubkey, hkey, by rw [hout]; rfl, by omega⟩
    · rintro ⟨pubkey, hkey, hsome, hlong⟩
      obtain ⟨out, hout⟩ := Option.isSome_iff_exists.mp hsome
      refine ⟨pubkey, hkey, Or.inr ⟨out, by rw [hmsg]; exact hout, ?_⟩⟩
      rw [(rsaEnc_length hout).1]
      omega
  · have hshort : ¬ maxMsg + 1 < q.item.nMsg := by
      rw [← q.item.size_eq, hlen]
      omega
    simp [Overflows, hmem, hget]
    intro _
    simpa using hshort

/-- A queued reply never leaves the buffers of a drain exactly when its encryption
is short enough. -/
theorem reply_drains_iff {p : Bytes} {n : ℕ} {b : Bytes} {q : Queued} (hp : p.length = maxMsg + 1)
    (hn : 2 ≤ n) (h : replyKey p n fSrvCli = some (b, some q)) :
    (∀ T c behind, sendIter T true (fun _ => sw) (⟨q.item, behind⟩, 0) c ≠ .fault) ↔
      (msgType p = msgGetAes → ∀ pubkey ∈ sw.getCliPub,
        (rsaEnc pubkey ((appendKey p n fSrvCli).take (n + aesBytes + aesIvBytes))).isSome →
          pubkey.size < maxMsg + 1) := by
  constructor
  · intro hdrain htype pubkey hkey hsome
    by_contra hlong
    have hover : Overflows (fun _ => sw) (⟨q.item, []⟩, 0) :=
      (reply_overflows_iff hp hn h []).mpr ⟨htype, pubkey, hkey, hsome, by omega⟩
    obtain ⟨_, hroute⟩ := replyKey_header hp hn h []
    have hiid : destId (⟨q.item, []⟩ : Taken).mem = some (devId (q.item.msg ++ [])) := by
      rw [destId, show ifroute (⟨q.item, []⟩ : Taken).mem = fSrvCli from hroute]
      rfl
    obtain ⟨T, ipv4, htarget⟩ := exists_target hiid
    have hne := hdrain T ⟨0, none, 0, 0⟩ []
    rw [sendIter_target htarget, encodeMsg_fault hover] at hne
    exact hne rfl
  · intro hshort T c behind
    apply sendIter_ne_fault
    rw [reply_overflows_iff hp hn h]
    rintro ⟨htype, pubkey, hkey, hsome, hlong⟩
    have := hshort htype pubkey hkey hsome
    omega

theorem DecodesTo.two_le {inBufout : Bool} {p : Bytes} {n : ℕ}
    (h : DecodesTo w bufout d inBufout p n) (hroute : ifroute p ≠ 0) : 2 ≤ n := by
  by_contra hlt
  exact hroute (h.spec.2.2.2 (by omega))

theorem mainTurn_decodesTo {inBufout : Bool} {p : Bytes} {n : ℕ}
    (h : DecodesTo w bufout d inBufout p n) : mainTurn w bufout.toList d.bytes =
      (routeMsg p n).map fun r => (if inBufout then r.1 else bufout.toList, r.2) := by
  rw [mainTurn_eq, show decode w (recvBuf d.bytes) bufout.toList d.bytes.length =
    .message inBufout p n from h]

theorem routeMsg_cliSrv {p : Bytes} (hroute : ifroute p = gCliSrv) (n : ℕ) :
    routeMsg p n = replyKey p n fSrvCli := by
  have hne : ¬ (ifroute p = gNtfCli ∨ ifroute p = gCliNtf) := by
    rw [hroute]
    decide
  rw [routeMsg, if_neg hne, if_pos hroute]

theorem TurnInBounds.text (h : TurnInBounds w bufout d stack sw) : RsaTextFits w d := by
  obtain ⟨r, hturn, _⟩ := h
  intro henc prv hprv out hout
  by_contra hlong
  have hfault := (decode_eq_fault_iff w (recvBuf d.bytes) bufout.toList d.bytes.length).mpr
    ⟨henc, prv, hprv, out, hout, by omega⟩
  rw [mainTurn_eq, hfault] at hturn
  cases hturn

theorem TurnInBounds.reply (h : TurnInBounds w bufout d stack sw) {inBufout : Bool} {p : Bytes}
    {n : ℕ} (hdec : DecodesTo w bufout d inBufout p n) (hroute : ifroute p = gCliSrv) :
    ReplyFits sw p n := by
  obtain ⟨r, hturn, _, hdrain⟩ := h
  obtain ⟨hp, _⟩ := hdec.spec
  have hn2 : 2 ≤ n := hdec.two_le (by rw [hroute]; decide)
  rw [mainTurn_decodesTo hdec, routeMsg_cliSrv hroute] at hturn
  rcases replyKey_cases (n := n) fSrvCli hp with ⟨hfit, q, hreply, _⟩ | ⟨_, hnone⟩
  · rw [hreply, Option.map_some, Option.some.injEq] at hturn
    refine ⟨hfit, (reply_drains_iff hp hn2 hreply).mp ?_⟩
    exact hdrain q (by rw [← hturn]; rfl)
  · rw [hnone] at hturn
    cases hturn

/-- A notification is queued as it is, and its drain stays in bounds. -/
theorem ntf_drains {p : Bytes} {n : ℕ} {q : Queued} (hpos : 0 < n) (hp : 0 < p.length)
    (hmsg : q.item.msg = p.take n) (htype : msgType p = msgNtf) :
    ∀ T c behind, sendIter T true (fun _ => sw) (⟨q.item, behind⟩, 0) c ≠ .fault := by
  intro T c behind
  apply sendIter_ne_fault
  apply not_overflows_of_ntf
  have hlen : 0 < q.item.msg.length := by rw [hmsg, List.length_take]; omega
  rw [Taken.mem, msgType, byteAt_append_left _ _ hlen, hmsg, byteAt_take _ hpos]
  exact htype

theorem TurnFits.message (h : TurnFits w bufout d stack sw) {inBufout : Bool} {p : Bytes} {n : ℕ}
    (hdec : DecodesTo w bufout d inBufout p n) :
    ∃ r, routeMsg p n = some r ∧
      ∀ q ∈ r.2, ∀ T c behind, sendIter T true (fun _ => sw) (⟨q.item, behind⟩, 0) c ≠ .fault := by
  obtain ⟨hp, hpos, hn, _⟩ := hdec.spec
  rcases routeMsg_cases hp hn with ⟨q, hr, hmsg, _, htype, _⟩ | ⟨hr, _⟩ | ⟨hroute, hr⟩ | ⟨hroute, _⟩
  · refine ⟨_, hr, ?_⟩
    intro q' hq'
    cases hq'
    exact ntf_drains hpos (by omega) hmsg htype
  · exact ⟨_, hr, by simp⟩
  · have hn2 : 2 ≤ n := hdec.two_le (by rw [hroute]; decide)
    obtain ⟨hfit, hshort⟩ := h.reply inBufout p n hdec hroute
    rcases replyKey_cases (n := n) fSrvCli hp with ⟨_, q, hreply, _⟩ | ⟨hno, _⟩
    · refine ⟨_, hr.trans hreply, ?_⟩
      intro q' hq'
      cases hq'
      exact (reply_drains_iff hp hn2 hreply).mpr hshort
    · exact absurd hfit hno
  · -- the name table of the routes ends before this one
    obtain ⟨_, hroute6, _⟩ := h.dum inBufout p n hdec
    have hdev : ifroute (p ++ stack) = ifroute p := byteAt_append_left _ _ (by simp [hp])
    rw [hdev, hroute] at hroute6
    exact absurd hroute6 (by decide)

end Bounds

/-- The turn on a datagram, and the drains of what it queues, stay in bounds exactly
when the datagram fits. -/
theorem turn_in_bounds_iff (w : RecvCalls) (bufout : Vector UInt8 (maxMsg + 1)) (d : Datagram)
    (stack : Bytes) (sw : Calls) :
    TurnInBounds w bufout d stack sw ↔ TurnFits w bufout d stack sw := by
  constructor
  · intro h
    refine ⟨h.text, ?_, fun inBufout p n hdec hroute => h.reply hdec hroute⟩
    intro inBufout p n hdec
    obtain ⟨_, _, hdum, _⟩ := h
    exact (dumMsg_isSome_iff _ _ _ _).mp (hdum inBufout p n hdec)
  · intro h
    have hdum : ∀ inBufout p n, DecodesTo w bufout d inBufout p n →
        (dumMsg "server.c" "main" 352 (p ++ stack)).isSome :=
      fun inBufout p n hdec => (dumMsg_isSome_iff _ _ _ _).mpr (h.dum inBufout p n hdec)
    cases hdec : decode w (recvBuf d.bytes) bufout.toList d.bytes.length with
    | fault =>
      obtain ⟨henc, prv, hprv, out, hout, hlong⟩ := (decode_eq_fault_iff _ _ _ _).mp hdec
      exact absurd (h.text henc prv hprv out hout) (by omega)
    | ignored b => exact ⟨(b, none), by rw [mainTurn_eq, hdec], hdum, by simp⟩
    | message inBufout p n =>
      obtain ⟨r, hr, hdrain⟩ := h.message hdec
      exact ⟨(if inBufout then r.1 else bufout.toList, r.2),
        by rw [mainTurn_decodesTo hdec, hr, Option.map_some], hdum, hdrain⟩

/-- A plain request on the notifier's route: `ifr` has no name for it. -/
theorem turn_leaves_bounds_on_ntfSrv :
    ¬ ∀ (w : RecvCalls) (bufout : Vector UInt8 (maxMsg + 1)) (d : Datagram) (stack : Bytes)
      (sw : Calls), TurnInBounds w bufout d stack sw := by
  intro h
  let d : Datagram := ⟨header msgGetAes gNtfSrv [110, 49] [], by decide, by decide⟩
  obtain ⟨_, _, hdum, _⟩ := h ⟨none, Gcm.failing⟩ (Vector.replicate 1201 0) d []
    ⟨none, Gcm.failing, 0⟩
  have hdec : DecodesTo ⟨none, Gcm.failing⟩ (Vector.replicate 1201 0) d false
      (recvBuf d.bytes) 100 := rfl
  have hsome := hdum false (recvBuf d.bytes) 100 hdec
  have hnone : dumMsg "server.c" "main" 352 (recvBuf d.bytes ++ []) = none := by decide +kernel
  rw [hnone] at hsome
  cases hsome

/-! ### A recorded request -/

/-- The request of the device `d1` for the key. -/
def requestBytes : Bytes := header msgGetAes gCliSrv [100, 49] []

/-- What the server queues for it. -/
def replyBytes : Bytes :=
  (appendKey (recvBuf requestBytes) sizeofMsgCommon fSrvCli).take 148

/-- One encryption of the reply under a key of 1280 bits. -/
def replyCipher : Bytes :=
  [151, 243, 128, 210, 155, 247, 169, 84, 71, 246, 237, 141, 176, 127, 78, 37, 138, 212, 63, 141,
   190, 183, 253, 125, 97, 149, 200, 107, 29, 82, 23, 60, 126, 146, 31, 111, 185, 68, 103, 196,
   12, 158, 106, 24, 185, 16, 110, 252, 85, 179, 57, 134, 95, 237, 62, 49, 245, 35, 74, 189,
   215, 155, 184, 149, 32, 172, 156, 113, 114, 34, 246, 69, 139, 94, 46, 54, 194, 174, 229, 222,
   236, 89, 150, 202, 198, 166, 90, 202, 234, 223, 64, 239, 197, 220, 45, 236, 4, 132, 13, 158,
   96, 238, 28, 209, 245, 38, 110, 60, 20, 87, 239, 235, 34, 169, 248, 73, 9, 175, 221, 83,
   160, 125, 205, 177, 100, 26, 242, 79, 1, 228, 108, 150, 142, 212, 50, 195, 245, 208, 14, 134,
   132, 101, 84, 207, 201, 114, 66, 73, 221, 42, 65, 216, 128, 244, 130, 159, 116, 67, 38, 90]

theorem replyBytes_length : replyBytes.length = 148 := by decide +kernel

theorem replyCipher_length : replyCipher.length = 160 := by decide +kernel

def replyPub : RsaPub :=
  RsaPub.single replyBytes replyCipher (by rw [replyBytes_length, replyCipher_length]; decide)

def replyPrv : RsaPrv :=
  RsaPrv.single replyBytes replyCipher (by rw [replyBytes_length]; decide)

end MemoryLeak.Notify
