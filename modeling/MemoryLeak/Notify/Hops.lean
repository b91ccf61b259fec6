import MemoryLeak.Notify.Delivery
import MemoryLeak.Notify.Helpers
import MemoryLeak.Notify.KeyAgreement
import MemoryLeak.Notify.SendingThread

/-!
# Hops between the parties

What each of the receive loops makes of a datagram that another party built: a frame under the
key of the server, a request or a tracking message under its public key, a reply under that of
the peer.
-/
namespace MemoryLeak.Notify
open MemoryLeak.CBytes

/-- The datagram is the message under the key of the server. -/
def Sealed (G : Gcm) (m d : Bytes) : Prop :=
  ∃ cipher tag, G.encrypt aesKey ivBytes m = some (cipher, tag) ∧ d = cipher ++ tag ++ [encryptAes]

/-- A message that the server forwards by its route. -/
structure Forwarded (route : UInt8) (m : Bytes) : Prop where
  header_le : sizeofMsgCommon ≤ m.length
  le : m.length ≤ maxMsg - aesIvBytes
  type_eq : msgType m = msgNtf
  route_eq : ifroute m = route

theorem byteAt_append_header {m : Bytes} (h : sizeofMsgCommon ≤ m.length) (behind : Bytes) {i : ℕ}
    (hi : i < sizeofMsgCommon) : byteAt (m ++ behind) i = byteAt m i :=
  byteAt_append_left _ _ (hi.trans_le h)

theorem Forwarded.fits {route : UInt8} {m : Bytes} (h : Forwarded route m) :
    m.length + 1 + aesIvBytes ≤ maxMsg + 1 := by
  have := h.le
  simp at *
  omega

/-! ### The id fields -/

/-- The bytes of both id fields. -/
def ids (m : Bytes) : Bytes := (m.take offSecond).drop offDevId

theorem idKey_devId (m : Bytes) : idKey (devId m) = cstr lenDevid (ids m) := by
  rw [ids, List.drop_take, cstr_take (by decide)]
  rfl

theorem idKey_ntfId (m : Bytes) : idKey (ntfId m) = cstr lenDevid ((ids m).drop lenDevid) := by
  rw [ids, List.drop_drop, List.drop_take, cstr_take (by decide)]
  rfl

theorem ids_take {n : ℕ} (h : offSecond ≤ n) (m : Bytes) : ids (m.take n) = ids m := by
  rw [ids, List.take_take, Nat.min_eq_left h, ids]

theorem ids_append {m : Bytes} (h : sizeofMsgCommon ≤ m.length) (behind : Bytes) :
    ids (m ++ behind) = ids m := by
  rw [ids, List.take_append_of_le_length (le_trans (by decide) h), ids]

/-- The route and the length stand outside of the ids. -/
theorem ids_rerouted {p : Bytes} (hp : sizeofMsgCommon ≤ p.length) (route : UInt8) (len : Bytes) :
    ids (setLen (setIfroute p route) len) = ids p := by
  have h1 : (setIfroute p route).length = p.length :=
    memcpy_length (le_trans (by simp) hp)
  have hfront : (setLen (setIfroute p route) len).take offSecond =
      (setIfroute p route).take offSecond :=
    memcpy_take_of_le (by decide) (by rw [h1]; exact le_trans (by decide) hp)
  have hback : (setIfroute p route).drop offDevId = p.drop offDevId :=
    memcpy_drop_end (le_trans (by decide) hp) (by simp)
  rw [ids, hfront, ids, List.drop_take, hback, List.drop_take]

/-! ### Frames -/

section Frames

variable {G : Gcm}

/-- What `msg_aes_enc` makes of a message that leaves room for tag and trailer. -/
theorem msgAesEnc_sealed (hG : G.Lawful) {m : Bytes} (h : m.length + 1 + aesIvBytes ≤ maxMsg + 1) :
    ∃ d, (msgAesEnc G aesKey ivBytes m (zeros (maxMsg + 1)) (maxMsg + 1)).map
      (fun r => r.1.take r.2) = some d ∧ Sealed G m d := by
  have hsome : (msgAesEnc G aesKey ivBytes m (zeros (maxMsg + 1)) (maxMsg + 1)).isSome :=
    (msgAesEnc_isSome_iff _ _ _ _ _ _).mpr ⟨h, hG.total _ _ _⟩
  obtain ⟨⟨b, n⟩, hb⟩ := Option.isSome_iff_exists.mp hsome
  obtain ⟨cipher, tag, henc, _, _, _, htake⟩ := msgAesEnc_take (by simp) hb
  exact ⟨b.take n, by rw [hb, Option.map_some], cipher, tag, henc, htake⟩

theorem Sealed.length {m d : Bytes} (h : Sealed G m d) : d.length = m.length + aesIvBytes + 1 := by
  obtain ⟨cipher, tag, henc, rfl⟩ := h
  exact encrypted_length henc

/-- The server queues a frame with a message that it forwards. -/
theorem mainTurn_sealed (hG : G.Lawful) {route : UInt8} {m d : Bytes} (hm : Forwarded route m)
    (hroute : route = gNtfCli ∨ route = gCliNtf) (hd : Sealed G m d) (prv : Option RsaPrv)
    {bufout : Bytes} (hbuf : bufout.length = maxMsg + 1) :
    ∃ b q, mainTurn ⟨prv, G⟩ bufout d = some (b, some q) ∧ q.item.msg = m ∧
      b.length = maxMsg + 1 := by
  obtain ⟨cipher, tag, henc, rfl⟩ := hd
  have hdec := hG.undo _ _ _ _ _ henc
  have hdecode := decode_aes (w := ⟨prv, G⟩) henc hdec hm.fits bufout
  have hlen := encrypted_length henc
  have hmin := encrypted_length_le henc hm.fits
  have hheader := hm.header_le
  have hle : m.length ≤ (memcpy bufout 0 m).length := by
    rw [memcpy_length (by rw [hbuf]; have := hm.fits; omega), hbuf]
    have := hm.fits
    omega
  have hfront : memcpy bufout 0 m = m ++ bufout.drop m.length := memcpy_start bufout m
  have htype : msgType (memcpy bufout 0 m) = msgNtf := by
    rw [hfront, msgType, byteAt_append_header hheader _ (by decide)]
    exact hm.type_eq
  have hifroute : ifroute (memcpy bufout 0 m) = gNtfCli ∨
      ifroute (memcpy bufout 0 m) = gCliNtf := by
    rw [hfront, ifroute, byteAt_append_header hheader _ (by decide)]
    exact hroute.imp (hm.route_eq.trans ·) (hm.route_eq.trans ·)
  refine ⟨memcpy bufout 0 m, ⟨newItem _ _ hle, false⟩, ?_, ?_, ?_⟩
  · rw [mainTurn, Nat.min_eq_left hmin, if_neg (by omega), if_neg (by simp at *; omega), hdecode]
    simp only [routeMsg, if_pos hifroute, if_pos htype, addToImdFwd, dif_pos hle, Option.map_some,
      if_true]
  · change (memcpy bufout 0 m).take m.length = m
    rw [hfront, List.take_left' rfl]
  · rw [memcpy_length (by rw [hbuf]; have := hm.fits; omega), hbuf]

/-- The drain puts a forwarded message under the key of the server. -/
theorem built_forwarded (hG : G.Lawful) {route : UInt8} {q : Taken}
    (hm : Forwarded route q.item.msg) : msgType q.mem = msgNtf ∧
      ∃ b, Sealed G q.item.msg b ∧ ∀ w : Calls, w.gcm = G → built w q = some b := by
  have htype : msgType q.mem = msgNtf := by
    rw [Taken.mem, msgType, byteAt_append_header hm.header_le _ (by decide)]
    exact hm.type_eq
  have hne : msgType q.mem ≠ msgGetAes := by
    rw [htype]
    decide
  have hfits := hm.fits
  rw [q.item.size_eq] at hfits
  obtain ⟨⟨cipher, tag⟩, henc⟩ := Option.isSome_iff_exists.mp (hG.total aesKey ivBytes q.item.msg)
  refine ⟨htype, _, ⟨cipher, tag, henc, rfl⟩, fun w hw => ?_⟩
  rw [built, if_neg hne, if_pos htype, if_pos hfits, hw, henc, Option.map_some]

/-- A peer with the key hands on the message of a frame. -/
theorem turn_sealed (hG : G.Lawful) {m d : Bytes} (hheader : sizeofMsgCommon ≤ m.length)
    (hfits : m.length + 1 + aesIvBytes ≤ maxMsg + 1) (hd : Sealed G m d) {st : PeerState}
    (hkey : HasKey st) (party : Party) (own : Option RsaPrv) :
    party.turn ⟨own, G⟩ st d = some ((party.handle st true (memcpy st.bufout 0 m) m.length).1,
      some (party.handle st true (memcpy st.bufout 0 m) m.length).2) := by
  obtain ⟨cipher, tag, henc, rfl⟩ := hd
  have hlen := encrypted_length henc
  have hmin := encrypted_length_le henc hfits
  have hdec := hG.undo _ _ _ _ _ henc
  rw [← hkey.key, ← hkey.iv] at henc hdec
  have hdecode := peerDecode_aes (w := ⟨own, G⟩) henc hdec hfits
  rw [Party.turn, Nat.min_eq_left hmin, if_neg (by omega), if_neg (by simp at *; omega), hdecode]

/-- `msg_aes_dec` on a received frame, whatever the key it is given. -/
theorem msgAesDec_frame {m cipher tag : Bytes}
    (henc : G.encrypt aesKey ivBytes m = some (cipher, tag))
    (hfits : m.length + 1 + aesIvBytes ≤ maxMsg + 1) (key iv buf : Bytes) :
    msgAesDec G key iv (recvBuf (cipher ++ tag ++ [encryptAes])) buf
        (cipher ++ tag ++ [encryptAes]).length (maxMsg + 1) =
      (memcpy buf 0 (G.decrypt key iv cipher tag).1,
        if (G.decrypt key iv cipher tag).2 then some (G.decrypt key iv cipher tag).1.length
        else none) := by
  obtain ⟨hc, ht⟩ := G.encrypt_length _ _ _ _ _ henc
  have hlen := encrypted_length henc
  have hbody : (recvBuf (cipher ++ tag ++ [encryptAes])).take
      ((cipher ++ tag ++ [encryptAes]).length - 1) = cipher ++ tag :=
    recvBuf_body (encrypted_length_le henc hfits)
  rw [hlen] at hbody ⊢
  simp only [aesIvBytes, maxMsg] at *
  set d := recvBuf (cipher ++ tag ++ [encryptAes])
  have hcipher : d.take m.length = cipher := by
    have h1 := congrArg (List.take m.length) hbody
    rwa [List.take_take, Nat.min_eq_left (by omega), List.take_left' hc] at h1
  have htag : (d.drop m.length).take 16 = tag := by
    have h1 := congrArg (List.drop m.length) hbody
    have hsub : m.length + 16 + 1 - 1 - m.length = 16 := by omega
    rwa [List.drop_take, List.drop_left' hc, hsub] at h1
  have hidx : m.length + 16 + 1 - 1 - 16 = m.length := by omega
  rw [msgAesDec, if_neg (by simp only [maxMsg]; omega), if_neg (by simp only [aesIvBytes]; omega),
    if_neg (by simp only [aesIvBytes]; omega)]
  simp only [aesIvBytes, hidx, hcipher, htag]

/-- A frame that does not open under the peer's key is dropped. -/
theorem peerDecode_unopened {m cipher tag : Bytes}
    (hfits : m.length + 1 + aesIvBytes ≤ maxMsg + 1)
    (henc : G.encrypt aesKey ivBytes m = some (cipher, tag)) {st : PeerState}
    (hdec : (G.decrypt st.aes256Key st.aes256Iv cipher tag).2 = false) (own : Option RsaPrv) :
    peerDecode ⟨own, G⟩ st (recvBuf (cipher ++ tag ++ [encryptAes]))
      (cipher ++ tag ++ [encryptAes]).length =
      .ignored (memcpy st.bufout 0 (G.decrypt st.aes256Key st.aes256Iv cipher tag).1) := by
  have hle := encrypted_length_le henc hfits
  have hne : encryptAes ≠ encryptCliPub := by decide
  have hframe := msgAesDec_frame henc hfits st.aes256Key st.aes256Iv st.bufout
  rw [hdec, if_neg (by decide)] at hframe
  simp only [peerDecode, recvBuf_trailer hle, if_neg hne, if_true, hframe]

/-- It only changes the buffer. -/
theorem turn_unopened {m d cipher tag : Bytes} (hheader : sizeofMsgCommon ≤ m.length)
    (hfits : m.length + 1 + aesIvBytes ≤ maxMsg + 1)
    (henc : G.encrypt aesKey ivBytes m = some (cipher, tag))
    (hd : d = cipher ++ tag ++ [encryptAes]) {st : PeerState} (hbuf : st.bufout.length = maxMsg + 1)
    (hdec : (G.decrypt st.aes256Key st.aes256Iv cipher tag).2 = false) (party : Party)
    (own : Option RsaPrv) : ∃ b, party.turn ⟨own, G⟩ st d = some ({ st with bufout := b }, none) ∧
      b.length = maxMsg + 1 := by
  subst hd
  have hle := encrypted_length_le henc hfits
  have hlen := encrypted_length henc
  refine ⟨memcpy st.bufout 0 (G.decrypt st.aes256Key st.aes256Iv cipher tag).1, ?_, ?_⟩
  · rw [Party.turn, Nat.min_eq_left hle, if_neg (by omega), if_neg (by simp at *; omega),
      peerDecode_unopened hfits henc hdec own]
  · have hplain := G.decrypt_length st.aes256Key st.aes256Iv cipher tag
    rw [(G.encrypt_length _ _ _ _ _ henc).1] at hplain
    rw [memcpy_length (by rw [hplain, hbuf]; omega), hbuf]

end Frames

/-! ### Requests -/

/-- A block that leaves no room for the trailer is not sent. -/
theorem rsaDatagram_encrypted {k : RsaPub} {buf c : Bytes} {n : ℕ} (hn : buf.take n ≠ [])
    (hlen : buf.length = maxMsg + 1) (henc : rsaEnc k (buf.take n) = some c) :
    (rsaDatagram (some k) buf n).bind Sending.sent =
      if maxMsg ≤ c.length then none else some (c ++ [encryptSrvPub]) := by
  have hfits := rsaEncFits_of_pos k (List.length_pos_of_ne_nil hn)
  have hret : rsaEncRet (some k) (buf.take n) true true = some ⟨0, some c, some c.length⟩ := by
    simp [rsaEncRet, hfits, henc]
  rw [rsaDatagram, hret]
  by_cases hbig : maxMsg ≤ c.length
  · simp [hbig]
  · have hcopy : (memcpy buf 0 c).length = maxMsg + 1 := by
      rw [memcpy_length (by omega), hlen]
    simp only [Option.getD_some, ne_eq, not_true, if_false, if_neg hbig, Option.bind_some]
    rw [memcpy_take_end (by rw [hcopy]; omega) (by simp), memcpy_take_end (by omega) (by simp),
      List.take_zero, List.nil_append]

/-- What `rsaDatagram` sends: the trailer alone, or the message and the trailer. -/
theorem rsaDatagram_cases {k : RsaPub} {buf d : Bytes} {n : ℕ} (hn : buf.take n ≠ [])
    (hlen : buf.length = maxMsg + 1)
    (h : (rsaDatagram (some k) buf n).bind Sending.sent = some d) :
    d = [encryptSrvPub] ∨ ∃ c, rsaEnc k (buf.take n) = some c ∧ c.length < maxMsg ∧
      d = c ++ [encryptSrvPub] := by
  cases henc : rsaEnc k (buf.take n) with
  | none =>
    have hfail : ¬ Encrypts k (buf.take n) := by
      rw [← rsaEnc_isSome_iff, henc]
      simp
    rw [rsaDatagram_failed hn hfail] at h
    exact Or.inl (Option.some.inj h).symm
  | some c =>
    rw [rsaDatagram_encrypted hn hlen henc] at h
    split_ifs at h with hbig
    exact Or.inr ⟨c, rfl, Nat.lt_of_not_le hbig, (Option.some.inj h).symm⟩

/-- The server decodes what was encrypted under its public key. -/
theorem decode_rsa {w : RecvCalls} {prv : RsaPrv} {c m : Bytes} (hprv : w.getSrvPrv = some prv)
    (hdec : rsaDec prv c = some m) (hm : m.length ≤ maxMsg + 1)
    (hle : (c ++ [encryptSrvPub]).length ≤ maxMsg + 1) (bufout : Bytes) :
    decode w (recvBuf (c ++ [encryptSrvPub])) bufout (c ++ [encryptSrvPub]).length =
      .message false (m ++ zeros (maxMsg + 1 - m.length)) m.length := by
  simp only [decode, recvBuf_trailer hle, recvBuf_body hle, hprv, hdec, if_pos hm, if_true,
    memcpy_zeros]

/-- The server queues the reply to a request that is a bare header. -/
theorem mainTurn_request {prv : RsaPrv} {G : Gcm} {c m : Bytes} {party : Party}
    (hdec : rsaDec prv c = some m) (hm : m.length = sizeofMsgCommon) (htype : msgType m = msgGetAes)
    (hroute : ifroute m = party.request) (hlo : sizeofMsgCommon ≤ (c ++ [encryptSrvPub]).length)
    (hle : (c ++ [encryptSrvPub]).length ≤ maxMsg + 1) {bufout : Bytes}
    (hbuf : bufout.length = maxMsg + 1) :
    ∃ x : KeyRequest,
      mainTurn ⟨some prv, G⟩ bufout (c ++ [encryptSrvPub]) = some (bufout, some x.q) ∧
      x.party = party ∧ x.n = sizeofMsgCommon ∧ x.p = m ++ zeros (maxMsg + 1 - m.length) := by
  let w : RecvCalls := ⟨some prv, G⟩
  let v : Vector UInt8 (maxMsg + 1) := ⟨⟨bufout⟩, hbuf⟩
  let d : Datagram := ⟨c ++ [encryptSrvPub], hlo, hle⟩
  let p := m ++ zeros (maxMsg + 1 - m.length)
  have hp : p.length = maxMsg + 1 := by
    simp only [p, List.length_append, zeros_length, hm]
    rfl
  have hdecodes : DecodesTo w v d false p m.length :=
    decode_rsa rfl hdec (by rw [hm]; decide) hle bufout
  have hptype : msgType p = msgGetAes := by
    rw [← htype]
    exact byteAt_append_header hm.ge _ (by decide)
  have hproute : ifroute p = party.request := by
    rw [← hroute]
    exact byteAt_append_header hm.ge _ (by decide)
  rcases replyKey_cases (n := m.length) party.reply hp with ⟨_, q, hreply, _, _⟩ | ⟨hno, _⟩
  · have hturn : mainTurn w bufout (c ++ [encryptSrvPub]) = some (bufout, some q) := by
      have hmain := mainTurn_decodesTo hdecodes
      rw [routeMsg_request hproute, hreply] at hmain
      exact hmain
    exact ⟨⟨party, w, v, d, false, p, m.length, hdecodes, hm.ge, hptype, hproute, bufout, q, hturn⟩,
      hturn, rfl, hm, rfl⟩
  · rw [hm] at hno
    exact absurd (by decide) hno

/-! ### Replies -/

/-- The id in a reply is that of the request. -/
theorem KeyRequest.idKey_eq (x : KeyRequest) (behind : Bytes) :
    idKey (devId (x.q.item.msg ++ behind)) = idKey (devId x.p) := by
  have hn := x.header_le
  have hp := x.p_length
  have hset := setReply_length x.party.reply hp
  have hfront : sizeofMsgCommon ≤ ((setReply x.p x.party.reply).take x.n).length := by
    rw [List.length_take, hset]
    simp at *
    omega
  rw [idKey_devId, idKey_devId, x.msg_eq, List.append_assoc, ids_append hfront,
    ids_take (le_trans (by decide) hn), setReply,
    ids_rerouted (hp.ge.trans' (by decide))]

/-- A reply is for the owner of its `dev_id`. -/
theorem KeyRequest.destId_eq (x : KeyRequest) (behind : Bytes) :
    destId (x.q.item.msg ++ behind) = some (devId (x.q.item.msg ++ behind)) := by
  rw [destId, (x.header_eq behind).2]
  cases x.party <;> rfl

/-- A bare header with the key behind it. -/
theorem KeyRequest.msg_length (x : KeyRequest) (hn : x.n = sizeofMsgCommon) :
    x.q.item.msg.length = 148 := by
  have hkey : (aesKey ++ ivBytes).length = 48 := rfl
  rw [x.msg_eq, List.length_append, List.length_take, setReply_length x.party.reply x.p_length, hn,
    hkey]
  rfl

/-- Any peer that decrypts a reply hands it on. If it is for its party, it has the key then. -/
theorem turn_reply (x : KeyRequest) (hn : x.n = sizeofMsgCommon) {prv : RsaPrv} {cipher : Bytes}
    (hdec : rsaDec prv cipher = some x.q.item.msg)
    (hlo : sizeofMsgCommon ≤ (cipher ++ [encryptCliPub]).length)
    (hle : (cipher ++ [encryptCliPub]).length ≤ maxMsg + 1) (party : Party) (G : Gcm)
    (st : PeerState) : ∃ st', party.turn ⟨some prv, G⟩ st (cipher ++ [encryptCliPub]) =
        some (st', some ⟨x.q.item.msg, none⟩) ∧
      st'.bufout = st.bufout ∧ (st' = st ∨ HasKey st') ∧
      (party = x.party → st'.gotAes = true) := by
  have hmsg := x.msg_length hn
  set behind := zeros (maxMsg + 1 - x.q.item.msg.length) with hbehind
  have hdecode := peerDecode_rsa (w := ⟨some prv, G⟩) rfl hdec (by rw [hmsg]; decide) hle st
  obtain ⟨htype, hroute⟩ := x.header_eq behind
  have htake : (x.q.item.msg ++ behind).take x.q.item.msg.length = x.q.item.msg :=
    List.take_left' rfl
  have hgot : (installKey st (x.q.item.msg ++ behind)).gotAes = true := by
    rw [installKey, if_neg (not_not.mpr (x.msgLen_eq behind))]
  have hinstall : HasKey (installKey st (x.q.item.msg ++ behind)) := by
    have hdata : msgData (x.q.item.msg ++ behind) = aesKey ++ (ivBytes ++ behind) := by
      rw [x.msgData_eq behind, hn, Nat.sub_self, List.take_zero, List.nil_append, List.append_assoc]
    rw [installKey, if_neg (not_not.mpr (x.msgLen_eq behind))]
    refine ⟨?_, ?_⟩
    · change (msgData (x.q.item.msg ++ behind)).take aesBytes = aesKey
      rw [hdata, List.take_left' aesKey_length]
    · change ((msgData (x.q.item.msg ++ behind)).drop aesBytes).take aesIvBytes = ivBytes
      rw [hdata, List.drop_left' aesKey_length, List.take_left' ivBytes_length]
  have hturn : party.turn ⟨some prv, G⟩ st (cipher ++ [encryptCliPub]) =
      some ((party.handle st false (x.q.item.msg ++ behind) x.q.item.msg.length).1,
        some (party.handle st false (x.q.item.msg ++ behind) x.q.item.msg.length).2) := by
    rw [Party.turn, Nat.min_eq_left hle, if_neg (by simp at *), if_neg (by omega), hdecode]
  rw [hturn]
  have hkeep : (installKey st (x.q.item.msg ++ behind)).bufout = st.bufout := by
    rw [installKey]
    split_ifs <;> rfl
  cases party with
  | client =>
    have hne : ifroute (x.q.item.msg ++ behind) ≠ gNtfCli := by
      rw [hroute]
      cases x.party <;> decide
    simp only [Party.handle, clientHandle, if_neg hne, htake]
    by_cases hfor : ifroute (x.q.item.msg ++ behind) = fSrvCli ∧
        msgType (x.q.item.msg ++ behind) = msgGetAes
    · rw [if_pos hfor]
      exact ⟨_, rfl, hkeep, Or.inr hinstall, fun _ => hgot⟩
    · rw [if_neg hfor]
      refine ⟨_, rfl, rfl, Or.inl rfl, fun hparty => absurd ⟨?_, htype⟩ hfor⟩
      rw [hroute, ← hparty]
      rfl
  | notifier =>
    simp only [Party.handle, notifierHandle, htake]
    by_cases hfor : ifroute (x.q.item.msg ++ behind) = fSrvNtf ∧
        msgType (x.q.item.msg ++ behind) = msgGetAes
    · rw [if_pos hfor]
      exact ⟨_, rfl, hkeep, Or.inr hinstall, fun _ => hgot⟩
    · rw [if_neg hfor]
      refine ⟨_, rfl, rfl, Or.inl rfl, fun hparty => absurd ⟨?_, htype⟩ hfor⟩
      rw [hroute, ← hparty]
      rfl

/-! ### Tracking -/

/-- The sending thread decodes a datagram that is no longer than its buffer as `main` does. -/
theorem sendingRecv_decoded {w : ThreadCalls} {d bufout p : Bytes} {inBufout : Bool} {n : ℕ}
    (hlo : sizeofMsgCommon ≤ d.length) (hle : d.length ≤ maxMsg)
    (hdec : decode w.toRecvCalls (recvBuf d) bufout d.length = .message inBufout p n) (T : Table)
    (around : ℤ → UInt8) (stack : Bytes) (cliaddr : SockAddrIn) :
    ∃ r, sendingRecv w T around bufout stack cliaddr d = some r ∧
      r.bufout = (if inBufout then p else bufout) ∧
      r.table = if msgType p = msgTra then (hlTrackMsg T (p ++ stack) cliaddr).2 else T := by
  have hint : (Int32.ofNat (min d.length maxMsg)).toInt = (d.length : ℤ) := by
    rw [ofNat_toInt, Nat.min_eq_left hle]
  have hsize : sizeT (Int32.ofNat (min d.length maxMsg)) = d.length := by
    rw [sizeT_of_nonneg (by omega)]
    omega
  have hbuf : threadBuf d = recvBuf d := by
    rw [threadBuf, recvBuf, List.take_of_length_le hle, List.take_of_length_le (by omega)]
  unfold sendingRecv sendingTurn
  rw [hsize, if_neg (by omega), threadDecode_eq w _ bufout hint
    (by simp only [sizeofMsgCommon] at hlo; omega) (by omega)]
  simp only [hbuf, hdec]
  by_cases htype : msgType p = msgTra
  · rw [if_pos htype, if_pos htype]
    exact ⟨_, rfl, rfl, rfl⟩
  · rw [if_neg htype, if_neg htype]
    exact ⟨_, rfl, rfl, rfl⟩

/-- It leaves what is shorter than a header alone. -/
theorem sendingRecv_short {d : Bytes} (h : d.length < sizeofMsgCommon) (w : ThreadCalls) (T : Table)
    (around : ℤ → UInt8) (bufout stack : Bytes) (cliaddr : SockAddrIn) :
    ∃ r, sendingRecv w T around bufout stack cliaddr d = some r ∧ r.bufout = bufout ∧
      r.table = T := by
  have hint := ofNat_toInt d
  have hsize : sizeT (Int32.ofNat (min d.length maxMsg)) < sizeofMsgCommon := by
    rw [sizeT_of_nonneg (by omega)]
    omega
  refine ⟨⟨none, false, none, bufout, T⟩, ?_, rfl, rfl⟩
  rw [sendingRecv, sendingTurn, if_pos hsize]

/-- All that the thread does to the table is one tracking. -/
theorem sendingRecv_table {w : ThreadCalls} {T : Table} {around : ℤ → UInt8}
    {bufout stack d : Bytes} {cliaddr : SockAddrIn} {r : SendingTurn}
    (h : sendingRecv w T around bufout stack cliaddr d = some r) :
    r.table = T ∨ ∃ p, r.table = (hlTrackMsg T p cliaddr).2 := by
  unfold sendingRecv sendingTurn at h
  split_ifs at h
  · cases h
    exact Or.inl rfl
  · split at h
    · cases h
    · cases h
      exact Or.inl rfl
    · rename_i p _ _
      dsimp only at h
      by_cases htype : msgType p = msgTra
      · rw [if_pos htype] at h
        cases h
        exact Or.inr ⟨_, rfl⟩
      · rw [if_neg htype] at h
        cases h
        exact Or.inl rfl

theorem mainTurn_short {d : Bytes} (h : d.length < sizeofMsgCommon) (w : RecvCalls)
    (bufout : Bytes) : mainTurn w bufout d = some (bufout, none) := by
  have hlt : min d.length (maxMsg + 1) < sizeofMsgCommon := lt_of_le_of_lt (Nat.min_le_left _ _) h
  rw [mainTurn]
  by_cases hzero : min d.length (maxMsg + 1) < 1
  · rw [if_pos hzero]
  · rw [if_neg hzero, if_pos hlt]

theorem turn_short {d : Bytes} (h : d.length < sizeofMsgCommon) (party : Party) (w : PeerCalls)
    (st : PeerState) : party.turn w st d = some (st, none) := by
  have hlt : min d.length (maxMsg + 1) < sizeofMsgCommon := lt_of_le_of_lt (Nat.min_le_left _ _) h
  rw [Party.turn]
  by_cases hzero : min d.length (maxMsg + 1) < 1
  · rw [if_pos hzero]
  · rw [if_neg hzero, if_pos hlt]

theorem installKey_gotAes (st : PeerState) (p : Bytes) (h : st.gotAes = true) :
    (installKey st p).gotAes = true := by
  rw [installKey]
  split_ifs
  · exact h
  · rfl

/-- A peer with the key keeps it. -/
theorem turn_gotAes {party : Party} {w : PeerCalls} {st st' : PeerState} {d : Bytes}
    {r : Option Received} (h : party.turn w st d = some (st', r)) (hgot : st.gotAes = true) :
    st'.gotAes = true := by
  have hhandle : ∀ inBufout p n, (party.handle st inBufout p n).1.gotAes = true := by
    intro inBufout p n
    cases party with
    | client =>
      simp only [Party.handle, clientHandle]
      split_ifs <;> first | exact hgot | exact installKey_gotAes _ p hgot
    | notifier =>
      simp only [Party.handle, notifierHandle]
      split_ifs <;> first | exact hgot | exact installKey_gotAes _ p hgot
  rw [Party.turn] at h
  simp only at h
  split_ifs at h
  · cases h
    exact hgot
  · cases h
    exact hgot
  · split at h
    · cases h
    · cases h
      exact hgot
    · cases h
      exact hhandle _ _ _

/-! ### The messages of the peers -/

/-- A copy inside the front of a buffer. -/
theorem memcpy_append_left {front behind src : Bytes} {off : ℕ}
    (h : off + src.length ≤ front.length) :
    memcpy (front ++ behind) off src = memcpy front off src ++ behind := by
  rw [memcpy, memcpy, List.take_append_of_le_length (by omega), List.drop_append_of_le_length h,
    List.append_assoc _ _ behind]

/-- The message of `send_msg_track` is a tracking of the id. -/
theorem trackMsg_spec {iid : Bytes} (h : lenDevid ≤ iid.length) (t : Timespec) :
    (trackMsg iid (some t)).length = maxMsg + 1 ∧
      msgType ((trackMsg iid (some t)).take sizeofMsgCommon) = msgTra ∧
      cstr lenDevid (ids ((trackMsg iid (some t)).take sizeofMsgCommon)) = idKey iid := by
  have htime : (putTimeToMsg (zeros (maxMsg + 1)) (some t)).length = maxMsg + 1 := by
    rw [putTimeToMsg_length (by simp), zeros_length]
  set buf := putTimeToMsg (zeros (maxMsg + 1)) (some t) with hbuf
  have h1 : (memcpy buf 0 [msgTra]).length = maxMsg + 1 := by
    rw [memcpy_length (by rw [htime]; simp), htime]
  have hid : (iid.take lenDevid).length = lenDevid := by
    rw [List.length_take, Nat.min_eq_left h]
  have h2 : (trackMsg iid (some t)).length = maxMsg + 1 := by
    rw [trackMsg, memcpy_length (by rw [h1, hid]; simp), h1]
  refine ⟨h2, ?_, ?_⟩
  · rw [msgType, byteAt_take _ (by decide), trackMsg, byteAt_memcpy_of_lt (by decide)
      (by rw [h1]; simp), memcpy_start]
    rfl
  · have hends : (trackMsg iid (some t)).take (offDevId + lenDevid) =
        (memcpy buf 0 [msgTra]).take offDevId ++ iid.take lenDevid :=
      memcpy_take_end (by rw [h1]; simp) (by rw [hid])
    have hdev : (ids ((trackMsg iid (some t)).take sizeofMsgCommon)).take lenDevid =
        iid.take lenDevid := by
      rw [ids_take (by decide), ids, List.take_drop, List.take_take, Nat.min_eq_left (by decide),
        hends, List.drop_left' (by rw [List.length_take, h1]; rfl)]
    rw [← cstr_take le_rfl, hdev, cstr_take le_rfl, idKey]

/-- The key of an id copied into a cleared field. -/
theorem idKey_copied {k : ℕ} (hk : lenDevid ≤ k) (id : Bytes) :
    cstr lenDevid ((id ++ [0]).take (min lenDevid (strlen id + 1)) ++ zeros k) = idKey id := by
  rw [← cstr_take le_rfl, take_copied_string lenDevid k id hk, cstr_take le_rfl]
  exact cstr_append_zeros (fun _ => ne_zero_of_mem_cstr) (cstr_length_le _ _)

/-- The message of `cmd_2_srv` without data. -/
theorem cmdMsg_spec {iid : Bytes} (h : lenDevid ≤ iid.length) (ht : Terminated iid)
    (cmd r : UInt8) (t : Timespec) :
    (cmdMsg cmd r none iid t).length = maxMsg + 1 ∧
      msgType ((cmdMsg cmd r none iid t).take sizeofMsgCommon) = cmd ∧
      ifroute ((cmdMsg cmd r none iid t).take sizeofMsgCommon) = r ∧
      cstr lenDevid (ids ((cmdMsg cmd r none iid t).take sizeofMsgCommon)) = idKey iid ∧
      byteAt ((cmdMsg cmd r none iid t).take sizeofMsgCommon) offNtfId = 0 := by
  have hterm : strlen iid < lenDevid := ht
  set dev := (iid ++ [0]).take (min lenDevid (strlen iid + 1)) with hdev
  have hcopy : iid.take (min lenDevid (strlen iid + 1)) = dev := by
    rw [hdev, List.take_append_of_le_length]
    exact (Nat.min_le_left _ _).trans h
  have hdevLen : dev.length ≤ lenDevid := by
    rw [hdev, List.length_take]
    exact (Nat.min_le_left _ _).trans (Nat.min_le_left _ _)
  have hfront : memcpy (zeros (maxMsg + 1)) 0 [cmd, r] = [cmd, r] ++ zeros 1199 := memcpy_zeros _ _
  have hfill : memcpy ([cmd, r] ++ zeros 1199) offDevId dev =
      [cmd, r] ++ (dev ++ zeros (1199 - dev.length)) := memcpy_append_zeros [cmd, r] dev 1199
  set buf := [cmd, r] ++ (dev ++ zeros (1199 - dev.length)) with hbuf
  have hlen : buf.length = maxMsg + 1 := by
    simp only [hbuf, List.length_append, zeros_length, List.length_cons, List.length_nil]
    simp only [lenDevid, maxMsg] at *
    omega
  have hmsg : cmdMsg cmd r none iid t = putTimeToMsg buf (some t) := by
    simp only [cmdMsg, hcopy, hfront, hfill]
  have htake := putTimeToMsg_take (hlen.ge.trans' (by decide)) (some t)
  have hbyte : ∀ i < offSecond, byteAt ((cmdMsg cmd r none iid t).take sizeofMsgCommon) i =
      byteAt buf i := by
    intro i hi
    rw [byteAt_take _ (lt_trans hi (by decide)), hmsg, ← byteAt_take _ hi, htake, byteAt_take _ hi]
  refine ⟨?_, hbyte 0 (by decide), hbyte 1 (by decide), ?_, ?_⟩
  · rw [hmsg, putTimeToMsg_length (hlen.ge.trans' (by decide)), hlen]
  · have hids : ids ((cmdMsg cmd r none iid t).take sizeofMsgCommon) =
        (dev ++ zeros (1199 - dev.length)).take (offSecond - offDevId) := by
      rw [ids_take (by decide), ids, hmsg, htake, List.drop_take]
      rfl
    rw [hids, cstr_take (by decide)]
    exact idKey_copied (by simp only [lenDevid] at *; omega) iid
  · -- the field of the notifier stays cleared
    have hbehind : byteAt (dev ++ zeros (1199 - dev.length)) 40 = 0 := by
      rw [byteAt_append_right _ _ hdevLen, byteAt_zeros]
    exact (hbyte offNtfId (by decide)).trans hbehind

section Notified

variable (devIid ntfIid text : Bytes) (t : Timespec)

/-- Both ids of the notifier's buffer. -/
theorem notifierBuffer_ids :
    cstr lenDevid (ids (notifierBuffer devIid ntfIid text t)) = idKey devIid ∧
      cstr lenDevid ((ids (notifierBuffer devIid ntfIid text t)).drop lenDevid) = idKey ntfIid := by
  have hid : ∀ s : Bytes, ((s ++ [0]).take (min lenDevid (strlen s + 1))).length ≤ lenDevid := by
    intro s
    rw [List.length_take]
    exact (Nat.min_le_left _ _).trans (Nat.min_le_left _ _)
  have hdev := hid devIid
  have hntf := hid ntfIid
  have hkeyDev := fun k hk => idKey_copied (k := k) hk devIid
  have hkeyNtf := fun k hk => idKey_copied (k := k) hk ntfIid
  have hfront : setIfroute (memcpy (zeros (maxMsg + 1)) 0 [msgNtf]) gNtfCli =
      [msgNtf, gNtfCli] ++ zeros 1199 := by decide +kernel
  rw [notifierBuffer, hfront]
  generalize (devIid ++ [0]).take (min lenDevid (strlen devIid + 1)) = dev at *
  generalize (ntfIid ++ [0]).take (min lenDevid (strlen ntfIid + 1)) = ntf at *
  simp only [lenDevid] at hdev hntf hkeyDev hkeyNtf
  -- the front up to the id of the notifier, and the cleared rest
  set front := [msgNtf, gNtfCli] ++ (dev ++ zeros (40 - dev.length)) with hfrontDef
  have hfrontLen : front.length = offNtfId := by
    simp only [hfrontDef, List.length_append, zeros_length, List.length_cons, List.length_nil]
    simp only [offNtfId]
    omega
  have h1 : memcpy ([msgNtf, gNtfCli] ++ zeros 1199) offDevId dev = front ++ zeros 1159 := by
    have hfill : memcpy ([msgNtf, gNtfCli] ++ zeros 1199) offDevId dev =
        [msgNtf, gNtfCli] ++ (dev ++ zeros (1199 - dev.length)) :=
      memcpy_append_zeros [msgNtf, gNtfCli] dev 1199
    have hsplit : zeros (1199 - dev.length) = zeros (40 - dev.length) ++ zeros 1159 := by
      rw [zeros, zeros, zeros, List.replicate_append_replicate]
      congr 1
      omega
    rw [hfill, hsplit, hfrontDef]
    simp only [List.append_assoc]
  have h2 : memcpy (front ++ zeros 1159) offNtfId ntf =
      front ++ (ntf ++ zeros (1159 - ntf.length)) := by
    rw [← hfrontLen]
    exact memcpy_append_zeros front ntf 1159
  have hlen2 : (front ++ (ntf ++ zeros (1159 - ntf.length))).length = maxMsg + 1 := by
    simp only [List.length_append, zeros_length, hfrontLen]
    simp only [offNtfId, maxMsg]
    omega
  rw [h1, h2]
  -- the later writes lie behind both ids
  obtain ⟨hlen3, htake3⟩ := memcpy_keeps (k := offSecond) (n := maxMsg + 1) hlen2
    (show offLen + (uint16ToArr (UInt16.ofNat (maxMsg - sizeofMsgCommon - 1 - aesIvBytes))
      lenU16int).length ≤ _ by simp) (by decide)
  obtain ⟨hlen4, htake4⟩ := memcpy_keeps (k := offSecond) (n := maxMsg + 1) hlen3
    (show sizeofMsgCommon + (text.take (min (strlen text)
      (maxMsg - sizeofMsgCommon - 1 - aesIvBytes - 1)) ++ [0]).length ≤ _ by simp; omega)
    (by decide)
  have htime := putTimeToMsg_take (le_trans (by decide) hlen4.ge) (some t)
  have hids := htime.trans (htake4.trans htake3)
  rw [← setLen] at hids
  have hfirst : ∀ k, (front ++ (ntf ++ zeros k)).drop offDevId =
      dev ++ zeros (40 - dev.length) ++ (ntf ++ zeros k) := fun _ => rfl
  have hdevLen : (dev ++ zeros (40 - dev.length)).length = lenDevid := by
    rw [List.length_append, zeros_length]
    simp only [lenDevid]
    omega
  constructor
  · have hpad : zeros lenDevid = zeros (40 - dev.length) ++ zeros dev.length := by
      rw [zeros, zeros, zeros, List.replicate_append_replicate]
      congr 1
      simp only [lenDevid]
      omega
    have hkey := hkeyDev lenDevid le_rfl
    rw [hpad, ← List.append_assoc, ← cstr_take le_rfl, List.take_left' hdevLen] at hkey
    rw [ids, hids, List.drop_take, hfirst, cstr_take (by decide), ← cstr_take le_rfl,
      List.take_left' hdevLen, hkey]
  · rw [ids, hids, List.drop_take, hfirst, List.drop_take, cstr_take (by decide),
      List.drop_left' hdevLen]
    exact hkeyNtf _ (by omega)

end Notified

end MemoryLeak.Notify
