import MemoryLeak.Notify.Peers

/-!
# Agreement on the shared key

A request for the key through the server's turn, the queue, the encryption in the
drain, the decryption in the peer and the installation. The server writes the key
behind the request, the peer reads it at the start of the data.
-/
namespace MemoryLeak.Notify
open MemoryLeak.CBytes MemoryLeak.Runs

/-- A `MSG_GET_AES` request of a peer, as the server decoded it and queued its
reply. -/
structure KeyRequest where
  party : Party
  w : RecvCalls
  bufout : Vector UInt8 (maxMsg + 1)
  d : Datagram
  inBufout : Bool
  p : Bytes
  n : ℕ
  decodes : DecodesTo w bufout d inBufout p n
  header_le : sizeofMsgCommon ≤ n
  type_eq : msgType p = msgGetAes
  route_eq : ifroute p = party.request
  b : Bytes
  q : Queued
  queued : mainTurn w bufout.toList d.bytes = some (b, some q)

/-- The reply to a request as a drain sent it: encrypted under a key that the
private key of the peer undoes. -/
structure KeyReply (x : KeyRequest) where
  T : Table
  w : ℕ → Calls
  chain : List Taken
  c : Carry
  outs : List Sent
  drained : sendToDst T true w chain = some (c, outs)
  s : Sent
  mem : s ∈ outs
  behind : Bytes
  of_request : chain[s.index]? = some ⟨x.q.item, behind⟩
  pubkey : RsaPub
  cipher : Bytes
  getCliPub_eq : (w s.index).getCliPub = some pubkey
  encrypts : rsaEnc pubkey x.q.item.msg = some cipher
  prv : RsaPrv
  decrypts : rsaDec prv cipher = some x.q.item.msg
  gcm : Gcm
  st : PeerState

/-- The peer's turn on the datagram installs the key and the iv of the server. -/
def Agrees (x : KeyRequest) (y : KeyReply x) : Prop :=
  ∃ st r, x.party.turn ⟨some y.prv, y.gcm⟩ y.st y.s.payload = some (st, r) ∧
    st.aes256Key = aesKey ∧ st.aes256Iv = ivBytes

/-! ### The reply as it was queued -/

theorem routeMsg_request {p : Bytes} {party : Party} (h : ifroute p = party.request) (n : ℕ) :
    routeMsg p n = replyKey p n party.reply := by
  cases party with
  | client => exact routeMsg_cliSrv h n
  | notifier =>
    have hfwd : ¬ (ifroute p = gNtfCli ∨ ifroute p = gCliNtf) := by
      rw [h]
      decide
    have hcli : ifroute p ≠ gCliSrv := by
      rw [h]
      decide
    rw [routeMsg, if_neg hfwd, if_neg hcli]
    exact if_pos h

namespace KeyRequest

variable (x : KeyRequest)

theorem p_length : x.p.length = maxMsg + 1 := x.decodes.spec.1

/-- The turn has queued the request with the key behind it. -/
theorem replyKey_eq : ∃ b, replyKey x.p x.n x.party.reply = some (b, some x.q) := by
  have hturn := x.queued
  rw [mainTurn_decodesTo x.decodes, routeMsg_request x.route_eq, Option.map_eq_some_iff] at hturn
  obtain ⟨⟨b, o⟩, hreply, heq⟩ := hturn
  have ho : o = some x.q := (Prod.mk.inj heq).2
  exact ⟨b, by rw [hreply, ho]⟩

theorem msg_eq : x.q.item.msg =
    (setReply x.p x.party.reply).take x.n ++ (aesKey ++ ivBytes) := by
  obtain ⟨b, hreply⟩ := x.replyKey_eq
  exact replyKey_msg x.p_length hreply

theorem n_le : x.n + aesBytes + aesIvBytes ≤ maxMsg + 1 := by
  obtain ⟨b, hreply⟩ := x.replyKey_eq
  exact (replyKey_item x.p_length hreply).1

theorem header_eq (behind : Bytes) : msgType (x.q.item.msg ++ behind) = msgGetAes ∧
    ifroute (x.q.item.msg ++ behind) = x.party.reply := by
  obtain ⟨b, hreply⟩ := x.replyKey_eq
  have hn : 2 ≤ x.n := le_trans (by decide) x.header_le
  rw [← x.type_eq]
  exact replyKey_header x.p_length hn hreply behind

/-- The length field of the reply, whatever the length of the request. -/
theorem msgLen_eq (behind : Bytes) :
    arrToUint16 (msgLen (x.q.item.msg ++ behind)) lenU16int = aesBytes + aesIvBytes := by
  have hn := x.header_le
  have hp := x.p_length
  have hroute := setIfroute_length x.party.reply hp
  have hset := setReply_length x.party.reply hp
  have hhead : (x.q.item.msg ++ behind).take sizeofMsgCommon =
      (setReply x.p x.party.reply).take sizeofMsgCommon := by
    rw [x.msg_eq, List.append_assoc, List.take_append_of_le_length
      (by rw [List.length_take, hset]; simp at *; omega), List.take_take, Nat.min_eq_left hn]
  have hlen : (x.q.item.msg ++ behind).take sizeofMsgCommon =
      (setIfroute x.p x.party.reply).take offLen ++ uint16ToArr 48 lenU16int := by
    rw [hhead, setReply, setLen]
    exact memcpy_take_end (by rw [hroute]; simp) (by simp)
  have hfield : msgLen (x.q.item.msg ++ behind) = uint16ToArr 48 lenU16int := by
    rw [msgLen, List.take_drop, show offLen + lenU16int = sizeofMsgCommon from rfl, hlen]
    exact List.drop_left' (by rw [List.length_take, hroute]; rfl)
  rw [hfield]
  decide

/-- The data of the request stands before the key. -/
theorem msgData_eq (behind : Bytes) : msgData (x.q.item.msg ++ behind) =
    (msgData x.p).take (x.n - sizeofMsgCommon) ++ (aesKey ++ ivBytes) ++ behind := by
  have hn := x.header_le
  have hp := x.p_length
  have hroute := setIfroute_length x.party.reply hp
  have hdata : (setReply x.p x.party.reply).drop sizeofMsgCommon = msgData x.p := by
    rw [setReply, setLen, memcpy_drop_end (by rw [hroute]; simp) (by simp), setIfroute,
      show sizeofMsgCommon = 2 + 98 from rfl, ← List.drop_drop,
      memcpy_drop_end (by rw [hp]; simp) (by simp), List.drop_drop, msgData]
  have hfront : sizeofMsgCommon ≤ ((setReply x.p x.party.reply).take x.n).length := by
    rw [List.length_take, setReply_length x.party.reply hp]
    have := x.n_le
    omega
  rw [x.msg_eq, msgData, List.append_assoc, List.drop_append_of_le_length hfront, List.drop_take,
    hdata, ← List.append_assoc]

end KeyRequest

/-! ### The datagram and the peer's turn -/

theorem KeyReply.payload_eq {x : KeyRequest} (y : KeyReply x) :
    y.s.payload = y.cipher ++ [encryptCliPub] ∧ y.s.payload.length ≤ maxMsg + 1 := by
  obtain ⟨hfits, hall, _⟩ := sendToDst_spec y.drained
  obtain ⟨z, hz, hsent⟩ := forall₂_mem_right hall y.mem
  have hitem : z.1 = ⟨x.q.item, y.behind⟩ := by
    have hat := y.of_request
    rw [hsent.index, List.mem_zipIdx_iff_getElem?.mp (mem_of_mem_reached hz)] at hat
    exact Option.some.inj hat
  have htype : msgType z.1.mem = msgGetAes := by
    rw [hitem]
    exact (x.header_eq y.behind).1
  have hkey : (y.w z.2).getCliPub = some y.pubkey := by rw [← hsent.index, y.getCliPub_eq]
  have henc : rsaEnc y.pubkey z.1.item.msg = some y.cipher := by rw [hitem, y.encrypts]
  have hpayload : y.s.payload = y.cipher ++ [encryptCliPub] := by
    apply hsent.payload
    rw [built, if_pos htype, hkey, Option.bind_some, henc, Option.map_some]
  refine ⟨hpayload, ?_⟩
  by_contra hlong
  rw [hpayload, List.length_append, List.length_singleton] at hlong
  have hover := hfits z hz
  rw [Overflows, if_pos htype] at hover
  exact hover ⟨y.pubkey, hkey, Or.inr ⟨y.cipher, henc, by omega⟩⟩

/-- The peer decrypts the reply and installs what stands at the start of its data. -/
theorem KeyReply.turn_eq {x : KeyRequest} (y : KeyReply x) :
    ∃ behind r, x.party.turn ⟨some y.prv, y.gcm⟩ y.st y.s.payload = some ({ y.st with
      aes256Key := (msgData (x.q.item.msg ++ behind)).take aesBytes
      aes256Iv := ((msgData (x.q.item.msg ++ behind)).drop aesBytes).take aesIvBytes
      gotAes := true }, r) := by
  obtain ⟨hpayload, hle⟩ := y.payload_eq
  have hn := x.header_le
  have hmsg : x.q.item.msg.length = x.n + aesBytes + aesIvBytes := by
    rw [x.msg_eq, List.length_append, List.length_take, setReply_length x.party.reply x.p_length,
      Nat.min_eq_left (by have := x.n_le; omega)]
    simp [Nat.add_assoc]
  have hcipher : x.q.item.msg.length + 11 ≤ y.cipher.length := by
    obtain ⟨hsize, hpad⟩ := rsaEnc_length y.encrypts
    omega
  rw [hpayload, List.length_append, List.length_singleton] at hle
  have hlen : min (y.cipher ++ [encryptCliPub]).length (maxMsg + 1) =
      (y.cipher ++ [encryptCliPub]).length := by simp at *; omega
  have hdec := peerDecode_rsa (w := ⟨some y.prv, y.gcm⟩) rfl y.decrypts (by omega)
    (by simp at *; omega) y.st
  set behind := zeros (maxMsg + 1 - x.q.item.msg.length)
  obtain ⟨htype, hroute⟩ := x.header_eq behind
  have hinstall := x.party.handle_reply y.st hroute htype x.q.item.msg.length
  rw [installKey, if_neg (not_not.mpr (x.msgLen_eq behind))] at hinstall
  refine ⟨behind, some (x.party.handle y.st false (x.q.item.msg ++ behind)
    x.q.item.msg.length).2, ?_⟩
  rw [Party.turn, hpayload, hlen]
  simp only [hdec]
  rw [if_neg (by simp at *), if_neg (by simp at *; omega), hinstall]

/-- What the peer installs is the start of the request's data with the key behind it. -/
theorem agrees_iff_data (x : KeyRequest) (y : KeyReply x) :
    Agrees x y ↔ ((msgData x.p).take (x.n - sizeofMsgCommon) ++ (aesKey ++ ivBytes)).take
      (aesBytes + aesIvBytes) = aesKey ++ ivBytes := by
  obtain ⟨behind, r, hturn⟩ := y.turn_eq
  have hdata := x.msgData_eq behind
  have htake : (msgData (x.q.item.msg ++ behind)).take (aesBytes + aesIvBytes) =
      ((msgData x.p).take (x.n - sizeofMsgCommon) ++ (aesKey ++ ivBytes)).take
        (aesBytes + aesIvBytes) := by
    rw [hdata, List.take_append_of_le_length (by simp)]
  rw [← htake, List.take_add]
  constructor
  · rintro ⟨st, r', hturn', hkey, hiv⟩
    cases hturn.symm.trans hturn'
    rw [← hkey, ← hiv]
  · intro h
    obtain ⟨hkey, hiv⟩ := List.append_inj h (by simp [hdata]; omega)
    exact ⟨_, r, hturn, hkey, hiv⟩

/-- The reply agrees on the key exactly when nothing of the request stands where the
peer reads it, or the key itself does. -/
theorem key_agreement_iff (x : KeyRequest) (y : KeyReply x) :
    Agrees x y ↔ x.n = sizeofMsgCommon ∨
      sizeofMsgCommon + aesBytes + aesIvBytes ≤ x.n ∧
        (msgData x.p).take (aesBytes + aesIvBytes) = aesKey ++ ivBytes := by
  have hn := x.header_le
  have hle := x.n_le
  have hdata : (msgData x.p).length = maxMsg + 1 - sizeofMsgCommon := by
    rw [msgData, List.length_drop, x.p_length]
  have hkeyLen : aesBytes + aesIvBytes = (aesKey ++ ivBytes).length := rfl
  have hfirst : ∀ i < (aesKey ++ ivBytes).length, 0 < i →
      byteAt (aesKey ++ ivBytes) i ≠ byteAt (aesKey ++ ivBytes) 0 := by decide
  rw [agrees_iff_data, hkeyLen, take_append_key_iff _ hfirst, ← hkeyLen, List.length_take, hdata,
    List.take_take]
  simp only [aesBytes, aesIvBytes, maxMsg] at hle hdata ⊢
  constructor
  · rintro (hnil | ⟨hlong, hkey⟩)
    · have hzero := congrArg List.length hnil
      rw [List.length_take, hdata, List.length_nil] at hzero
      exact Or.inl (by omega)
    · rw [Nat.min_eq_left (by omega)] at hkey
      exact Or.inr ⟨by omega, hkey⟩
  · rintro (hshort | ⟨hlong, hkey⟩)
    · rw [hshort, Nat.sub_self]
      exact Or.inl List.take_zero
    · refine Or.inr ⟨by omega, ?_⟩
      rw [Nat.min_eq_left (by omega), hkey]

/-! ### Requests that are answered -/

/-- A request in a plain datagram is queued with the key as soon as the key fits. -/
theorem exists_request (party : Party) (d : Datagram)
    (hplain : byteAt d.bytes (d.bytes.length - 1) ≠ encryptSrvPub ∧
      byteAt d.bytes (d.bytes.length - 1) ≠ encryptAes)
    (htype : msgType d.bytes = msgGetAes) (hroute : ifroute d.bytes = party.request)
    (hfit : d.bytes.length + aesBytes + aesIvBytes ≤ maxMsg + 1) :
    ∃ x : KeyRequest, x.party = party ∧ x.p = recvBuf d.bytes ∧ x.n = d.bytes.length ∧
      x.q.item.msg = (appendKey (recvBuf d.bytes) d.bytes.length party.reply).take
        (d.bytes.length + aesBytes + aesIvBytes) := by
  have hle := d.header_le
  let w : RecvCalls := ⟨none, Gcm.failing⟩
  let bufout : Vector UInt8 (maxMsg + 1) := Vector.replicate _ 0
  have hdec : DecodesTo w bufout d false (recvBuf d.bytes) d.bytes.length := by
    have hlast := recvBuf_byteAt d.le
      (show d.bytes.length - 1 < d.bytes.length by simp at hle; omega)
    simp only [DecodesTo, decode, hlast, if_neg hplain.1, if_neg hplain.2]
  have hrecv : ifroute (recvBuf d.bytes) = party.request := by
    rw [← hroute]
    exact recvBuf_byteAt d.le (by simp at *; omega)
  rcases replyKey_cases (n := d.bytes.length) party.reply (recvBuf_length d.bytes) with
    ⟨_, q, hreply, _, hmsg⟩ | ⟨hno, _⟩
  · refine ⟨⟨party, w, bufout, d, false, recvBuf d.bytes, d.bytes.length, hdec, hle, ?_, hrecv,
      bufout.toList, q, ?_⟩, rfl, rfl, rfl, hmsg⟩
    · rw [← htype]
      exact recvBuf_byteAt d.le (by simp at *; omega)
    · rw [mainTurn_decodesTo hdec, routeMsg_request hrecv, hreply]
      rfl
  · exact absurd hfit hno

/-- The drain of the queued reply alone, encrypted under a key that fits the buffer. -/
theorem KeyRequest.answered (x : KeyRequest) {T : Table} {ipv4 : SockAddrIn} {pubkey : RsaPub}
    {prv : RsaPrv} {cipher : Bytes} (htarget : target T ⟨x.q.item, []⟩ = some ipv4)
    (hsize : pubkey.size ≤ maxMsg) (henc : rsaEnc pubkey x.q.item.msg = some cipher)
    (hdec : rsaDec prv cipher = some x.q.item.msg) : Nonempty (KeyReply x) := by
  let w : ℕ → Calls := fun _ => ⟨some pubkey, Gcm.failing, 0⟩
  let q : Taken := ⟨x.q.item, []⟩
  have htype : msgType q.mem = msgGetAes := (x.header_eq []).1
  have hgoes : ¬ Stops T w (q, 0) := by
    rintro (hnone | ⟨hntf, _⟩)
    · rw [htarget] at hnone
      cases hnone
    · rw [htype] at hntf
      exact absurd hntf (by decide)
  have hreached : reached (Stops T w) [q].zipIdx = [(q, 0)] := by
    simp [reached, hgoes]
  have hpos : 0 < x.q.item.msg.length := by simp [x.msg_eq]
  have hfits : ¬ Overflows w (q, 0) := by
    rw [Overflows, if_pos htype]
    rintro ⟨pubkey', hkey, hbad⟩
    cases hkey
    obtain ⟨out, hout, hlong⟩ := hbad.resolve_left (not_not.mpr (rsaEncFits_of_pos pubkey hpos))
    rw [(rsaEnc_length hout).1] at hlong
    omega
  have hnone : ∀ z ∈ reached (Stops T w) [q].zipIdx, ¬ Overflows w z := by
    intro z hz
    rw [hreached, List.mem_singleton] at hz
    rwa [hz]
  obtain ⟨c, outs, hrun, hall, _⟩ := sendToDst_some hnone
  obtain ⟨s, hs, hsent⟩ := forall₂_mem_left hall (by rw [hreached]; exact List.mem_singleton_self _)
  exact ⟨⟨T, w, [q], c, outs, hrun, s, hs, [], by rw [hsent.index]; rfl, pubkey, cipher, rfl, henc,
    prv, hdec, Gcm.failing, ⟨[], [], false, []⟩⟩⟩

/-- The request of the shipped client, which has no data. -/
theorem key_agreement_sample : ∃ (x : KeyRequest) (y : KeyReply x), x.party = .client ∧
    x.n = sizeofMsgCommon ∧ Agrees x y := by
  let T := (exec tableStep emptyTable [.reg (header msgReg gNtfCli [100, 49] []) 100 none none]).1
  let d : Datagram := ⟨requestBytes, by decide, by decide⟩
  obtain ⟨x, hparty, _, hn, hmsg⟩ := exists_request .client d (by decide +kernel)
    (by decide +kernel) (by decide +kernel) (by decide)
  have hitem : x.q.item = ⟨replyBytes, 148, replyBytes_length⟩ := FwdItem.ext_msg hmsg
  have htarget : (target T ⟨x.q.item, []⟩).isSome := by
    rw [hitem]
    decide +kernel
  have henc : rsaEnc replyPub x.q.item.msg = some replyCipher := by
    rw [hitem]
    exact rsaEnc_single _ _ _
  have hdec : rsaDec replyPrv replyCipher = some x.q.item.msg := by
    rw [hitem]
    exact rsaDec_single _ _ _ (by rw [replyCipher_length]; decide)
  have hsize : replyPub.size ≤ maxMsg := by decide +kernel
  obtain ⟨ipv4, hip⟩ := Option.isSome_iff_exists.mp htarget
  obtain ⟨y⟩ := x.answered hip hsize henc hdec
  exact ⟨x, y, hparty, hn, (key_agreement_iff x y).mpr (Or.inl hn)⟩

/-- Behind one byte of data the key is installed shifted by that byte. -/
theorem key_agreement_fails_behind_data : ¬ ∀ (x : KeyRequest) (y : KeyReply x), Agrees x y := by
  intro h
  let T := (exec tableStep emptyTable [.reg (header msgReg gNtfCli [100, 49] []) 100 none none]).1
  let d : Datagram := ⟨requestBytes ++ [97], by decide, by decide⟩
  let m := (appendKey (recvBuf d.bytes) 101 fSrvCli).take 149
  have hm : m.length = 149 := by decide +kernel
  have hpad : m.length + 11 ≤ (zeros 160).length := by rw [hm, zeros_length]
  have hpos : 0 < m.length := by rw [hm]; decide
  obtain ⟨x, _, hp, hn, hmsg⟩ := exists_request .client d (by decide +kernel) (by decide +kernel)
    (by decide +kernel) (by decide)
  have hitem : x.q.item = ⟨m, 149, hm⟩ := FwdItem.ext_msg hmsg
  have htarget : (target T ⟨x.q.item, []⟩).isSome := by
    rw [hitem]
    clear hmsg hitem
    revert hm
    decide +kernel
  have henc : rsaEnc (RsaPub.single m (zeros 160) hpad) x.q.item.msg = some (zeros 160) := by
    rw [hitem]
    exact rsaEnc_single _ _ _
  have hdec : rsaDec (RsaPrv.single m (zeros 160) hpos) (zeros 160) = some x.q.item.msg := by
    rw [hitem]
    exact rsaDec_single _ _ _ (by simp)
  have hsize : (RsaPub.single m (zeros 160) hpad).size ≤ maxMsg := by simp [RsaPub.single]
  obtain ⟨ipv4, hip⟩ := Option.isSome_iff_exists.mp htarget
  obtain ⟨y⟩ := x.answered hip hsize henc hdec
  have hagrees := (agrees_iff_data x y).mp (h x y)
  rw [hp, hn] at hagrees
  exact absurd hagrees (by decide +kernel)

end MemoryLeak.Notify
