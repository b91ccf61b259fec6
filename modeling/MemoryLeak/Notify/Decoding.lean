import MemoryLeak.Notify.Delivery
import MemoryLeak.Notify.SendingThread

/-!
# What the receivers make of a datagram of the server

`send_to_dst` chooses the encoding by the type of the message, the receive loops of the client
and the notifier choose the decoding by the last byte of the datagram. A message that is sent
as it is has no byte of its own for that.
-/
namespace MemoryLeak.Notify
open MemoryLeak.CBytes MemoryLeak.Runs

/-! ### The payload of a datagram -/

theorem sendIter_next_inv {T : Table} {clear : Bool} {w : ℕ → Calls} {x : Taken × ℕ} {c c' : Carry}
    {s : Sent} (h : sendIter T clear w x c = .next c' s) :
    ∃ buffer sn err, encodeMsg (w x.2) x.1 (zeros (maxMsg + 1)) c.sn c.err = .done buffer sn err ∧
      s.payload = buffer.take sn.toNat ∧ s.item = x.1.item ∧ s.index = x.2 := by
  simp only [sendIter] at h
  split at h
  · cases h
  · split at h
    · cases h
    · split at h
      · cases h
      · split at h
        · cases h
        · cases h
        · next buffer sn err henc =>
          cases h
          exact ⟨buffer, sn, err, henc, rfl, rfl, rfl⟩

/-- The switch leaves the encoded message, or a cleared buffer when a reply has no encoding. -/
theorem encodeMsg_payload {w : ℕ → Calls} {x : Taken × ℕ} {sn sn' : ℤ} {err err' : ℕ}
    {buffer : Bytes}
    (h : encodeMsg (w x.2) x.1 (zeros (maxMsg + 1)) sn err = .done buffer sn' err') :
    built (w x.2) x.1 = some (buffer.take sn'.toNat) ∨
      built (w x.2) x.1 = none ∧ msgType x.1.mem = msgGetAes ∧ buffer = zeros (maxMsg + 1) := by
  have hfits : ¬ Overflows w x := by
    intro hover
    rw [encodeMsg_fault hover] at h
    cases h
  cases hbuilt : built (w x.2) x.1 with
  | some b =>
    obtain ⟨buffer', sn₁, err₁, henc, htake⟩ :=
      encodeMsg_done hfits sn err fun _ => by rw [hbuilt]; exact Option.some_ne_none b
    cases h.symm.trans henc
    rw [htake b hbuilt]
    exact Or.inl rfl
  | none =>
    refine Or.inr ⟨rfl, ?_⟩
    by_cases hget : msgType x.1.mem = msgGetAes
    · refine ⟨hget, ?_⟩
      simp only [built, if_pos hget, Option.map_eq_none_iff] at hbuilt
      simp only [encodeMsg, if_pos hget] at h
      cases hkey : (w x.2).getCliPub with
      | none =>
        simp only [hkey, Encoded.done.injEq] at h
        exact h.1.symm
      | some pubkey =>
        simp only [hkey, Option.bind_some] at hbuilt
        simp only [hkey, hbuilt] at h
        split_ifs at h
        simp only [Encoded.done.injEq] at h
        exact h.1.symm
    · by_cases hntf : msgType x.1.mem = msgNtf
      · rw [encodeMsg_fail hntf hbuilt] at h
        cases h
      · simp [built, hget, hntf] at hbuilt

/-! ### What a receive loop gets of it -/

/-- The receive loop decodes the datagram `d` to `m`. -/
def Party.Gets (party : Party) (v : PeerCalls) (st : PeerState) (d m : Bytes) : Prop :=
  ∃ st' r, party.turn v st d = some (st', some r) ∧ r.msg = m

theorem Party.handle_msg (party : Party) (st : PeerState) (inBufout : Bool) (p : Bytes) (n : ℕ) :
    (party.handle st inBufout p n).2.msg = p.take n := by
  cases party with
  | client =>
    rw [Party.handle, clientHandle]
    by_cases hntf : ifroute p = gNtfCli
    · rw [if_pos hntf]
    · rw [if_neg hntf]
      by_cases hkey : ifroute p = fSrvCli ∧ msgType p = msgGetAes
      · rw [if_pos hkey]
      · rw [if_neg hkey]
  | notifier =>
    rw [Party.handle, notifierHandle]
    by_cases hkey : ifroute p = fSrvNtf ∧ msgType p = msgGetAes
    · rw [if_pos hkey]
    · rw [if_neg hkey]

/-- Both loops hand on what they decoded. -/
theorem Party.gets_iff (party : Party) (v : PeerCalls) (st : PeerState) {d : Bytes}
    (hle : d.length ≤ maxMsg + 1) (hlen : sizeofMsgCommon ≤ d.length) (m : Bytes) :
    party.Gets v st d m ↔ ∃ inBufout p n,
      peerDecode v st (recvBuf d) d.length = .message inBufout p n ∧ p.take n = m := by
  have hmin : min d.length (maxMsg + 1) = d.length := Nat.min_eq_left hle
  unfold Party.Gets Party.turn
  simp only [sizeofMsgCommon] at hlen
  rw [hmin, if_neg (by omega), if_neg (by simp only [sizeofMsgCommon]; omega)]
  cases peerDecode v st (recvBuf d) d.length with
  | fault => simp
  | ignored b => simp
  | message inBufout p n => simp [Party.handle_msg]

/-- A datagram shorter than a header is dropped. -/
theorem Party.not_gets_short (party : Party) (v : PeerCalls) (st : PeerState) {d : Bytes}
    (hlen : d.length < sizeofMsgCommon) (m : Bytes) : ¬ party.Gets v st d m := by
  rintro ⟨st', r, hturn, _⟩
  simp only [sizeofMsgCommon] at hlen
  rw [Party.turn, Nat.min_eq_left (by simp only [maxMsg]; omega)] at hturn
  by_cases hpos : d.length < 1
  · rw [if_pos hpos] at hturn
    cases hturn
  · rw [if_neg hpos, if_pos (by simp only [sizeofMsgCommon]; omega)] at hturn
    cases hturn

/-- The peer has the private key to the public key that the server has of it, and the key and
the iv of the server. -/
structure Answers (sw : Calls) (v : PeerCalls) (st : PeerState) : Prop where
  gcm : v.gcm = sw.gcm
  lawful : sw.gcm.Lawful
  hasKey : HasKey st
  paired : ∀ pubkey ∈ sw.getCliPub, ∃ prv, v.getCliPrv = some prv ∧
    ∀ plain cipher, rsaEnc pubkey plain = some cipher → rsaDec prv cipher = some plain

/-- The last byte of what is sent tells the encoding: a request for the key could be encrypted,
and a message that is sent as it is does not end in the byte of an encoding that changes it. -/
def Recognised (sw : Calls) (v : PeerCalls) (msg : Bytes) : Prop :=
  if msgType msg = msgGetAes then ∃ pubkey ∈ sw.getCliPub, (rsaEnc pubkey msg).isSome
  else msgType msg ≠ msgNtf →
    byteAt msg (msg.length - 1) ≠ encryptAes ∧
      (byteAt msg (msg.length - 1) = encryptCliPub →
        ∀ prv ∈ v.getCliPrv, ∀ out ∈ rsaDec prv (msg.take (msg.length - 1)), out = msg)

section Payload

variable {sw : Calls} {v : PeerCalls} {st : PeerState} {msg : Bytes} (party : Party)

/-- A reply under the peer's public key. -/
theorem gets_rsa (hpeer : Answers sw v st) {pubkey : RsaPub} {cipher : Bytes}
    (hkey : sw.getCliPub = some pubkey) (henc : rsaEnc pubkey msg = some cipher)
    (hlen : sizeofMsgCommon ≤ msg.length) (hfit : cipher.length + 1 ≤ maxMsg + 1) :
    party.Gets v st (cipher ++ [encryptCliPub]) msg := by
  obtain ⟨prv, hprv, hundo⟩ := hpeer.paired pubkey hkey
  obtain ⟨hsize, hroom⟩ := rsaEnc_length henc
  have hle : (cipher ++ [encryptCliPub]).length ≤ maxMsg + 1 := by simpa using hfit
  have hheader : sizeofMsgCommon ≤ (cipher ++ [encryptCliPub]).length := by
    rw [List.length_append, List.length_singleton]
    omega
  rw [party.gets_iff v st hle hheader]
  refine ⟨_, _, _, peerDecode_rsa hprv (hundo msg cipher henc) (by omega) hle st, ?_⟩
  exact List.take_left' rfl

/-- A notification under the key of the server. -/
theorem gets_aes (hpeer : Answers sw v st) {cipher tag : Bytes}
    (henc : sw.gcm.encrypt aesKey ivBytes msg = some (cipher, tag))
    (hlen : sizeofMsgCommon ≤ msg.length) (hfit : msg.length + 1 + aesIvBytes ≤ maxMsg + 1) :
    party.Gets v st (cipher ++ tag ++ [encryptAes]) msg := by
  have hdec := hpeer.lawful.undo _ _ _ _ _ henc
  rw [← hpeer.gcm, ← hpeer.hasKey.key, ← hpeer.hasKey.iv] at henc hdec
  have hwire := encrypted_length henc
  rw [party.gets_iff v st (encrypted_length_le henc hfit) (by rw [hwire]; omega)]
  refine ⟨_, _, _, peerDecode_aes henc hdec hfit, ?_⟩
  rw [memcpy_start]
  exact List.take_left' rfl

theorem recvBuf_last (hlen : sizeofMsgCommon ≤ msg.length) (hle : msg.length ≤ maxMsg + 1) :
    byteAt (recvBuf msg) (msg.length - 1) = byteAt msg (msg.length - 1) := by
  simp only [sizeofMsgCommon] at hlen
  exact recvBuf_byteAt hle (by omega)

/-- A message sent as it is that ends in the byte of RSA: what `rsa_dec` makes of the rest. -/
theorem gets_plain_rsa_iff (hlen : sizeofMsgCommon ≤ msg.length) (hle : msg.length ≤ maxMsg + 1)
    (hrsa : byteAt msg (msg.length - 1) = encryptCliPub) :
    party.Gets v st msg msg ↔
      ∀ prv ∈ v.getCliPrv, ∀ out ∈ rsaDec prv (msg.take (msg.length - 1)), out = msg := by
  rw [party.gets_iff v st hle hlen]
  simp only [peerDecode, recvBuf_last hlen hle, recvBuf_front hle, hrsa, if_true]
  cases hprv : v.getCliPrv with
  | none => simpa using recvBuf_take hle
  | some prv =>
    simp only [Option.bind_some, Option.mem_def, Option.some.injEq, forall_eq']
    cases hdec : rsaDec prv (msg.take (msg.length - 1)) with
    | none => simpa using recvBuf_take hle
    | some out =>
      simp only [Option.some.injEq, forall_eq']
      by_cases hfit : out.length ≤ maxMsg + 1
      · have htake : (memcpy (zeros (maxMsg + 1)) 0 out).take out.length = out := by
          rw [memcpy_start, List.take_left' rfl]
        simp only [if_pos hfit, Decoded.message.injEq]
        constructor
        · rintro ⟨_, _, _, ⟨_, rfl, rfl⟩, rfl⟩
          exact htake.symm
        · rintro rfl
          exact ⟨_, _, _, ⟨rfl, rfl, rfl⟩, htake⟩
      · simp only [if_neg hfit]
        refine iff_of_false (by simp) ?_
        rintro rfl
        exact hfit hle

/-- One that ends in the byte of AES is lost: what AES recovers of it is shorter. -/
theorem not_gets_plain_aes (hlen : sizeofMsgCommon ≤ msg.length) (hle : msg.length ≤ maxMsg + 1)
    (haes : byteAt msg (msg.length - 1) = encryptAes) : ¬ party.Gets v st msg msg := by
  have hne : encryptAes ≠ encryptCliPub := by decide
  rw [party.gets_iff v st hle hlen]
  simp only [peerDecode, recvBuf_last hlen hle, haes, if_neg hne, if_true]
  have hspec := msgAesDec_aesText v.gcm st.aes256Key st.aes256Iv (recvBuf msg) st.bufout
    msg.length
  cases htext : aesText v.gcm st.aes256Key st.aes256Iv (recvBuf msg) msg.length with
  | none =>
    simp only [htext] at hspec
    obtain ⟨b, hb⟩ := hspec
    simp [hb]
  | some text =>
    simp only [htext] at hspec
    have hshorter := aesText_length (by rw [recvBuf_length]; exact hle) htext
    rw [hspec]
    rintro ⟨_, _, _, heq, htake⟩
    cases heq
    rw [memcpy_start, List.take_left' rfl] at htake
    rw [htake] at hshorter
    simp only [aesIvBytes] at hshorter
    omega

/-- A message that is sent as it is. -/
theorem gets_plain_iff (hlen : sizeofMsgCommon ≤ msg.length) (hle : msg.length ≤ maxMsg + 1) :
    party.Gets v st msg msg ↔ byteAt msg (msg.length - 1) ≠ encryptAes ∧
      (byteAt msg (msg.length - 1) = encryptCliPub →
        ∀ prv ∈ v.getCliPrv, ∀ out ∈ rsaDec prv (msg.take (msg.length - 1)), out = msg) := by
  by_cases hrsa : byteAt msg (msg.length - 1) = encryptCliPub
  · have hne : encryptCliPub ≠ encryptAes := by decide
    rw [gets_plain_rsa_iff party hlen hle hrsa]
    exact ⟨fun h => ⟨hrsa ▸ hne, fun _ => h⟩, fun h => h.2 hrsa⟩
  · by_cases haes : byteAt msg (msg.length - 1) = encryptAes
    · exact iff_of_false (not_gets_plain_aes party hlen hle haes) fun h => h.1 haes
    · rw [party.gets_iff v st hle hlen]
      simp only [peerDecode, recvBuf_last hlen hle, if_neg hrsa, if_neg haes]
      exact iff_of_true ⟨_, _, _, rfl, recvBuf_take hle⟩ ⟨haes, fun h => absurd h hrsa⟩

/-- Cleared bytes are no request for the key. -/
theorem not_gets_cleared (hget : msgType msg = msgGetAes) (k : ℕ) :
    ¬ party.Gets v st ((zeros (maxMsg + 1)).take k) msg := by
  intro hgets
  have hzeros : (zeros (maxMsg + 1)).take k = zeros (min k (maxMsg + 1)) := List.take_replicate
  rw [hzeros] at hgets
  have hle : (zeros (min k (maxMsg + 1))).length ≤ maxMsg + 1 := by
    rw [zeros_length]
    omega
  by_cases hshort : (zeros (min k (maxMsg + 1))).length < sizeofMsgCommon
  · exact party.not_gets_short v st hshort msg hgets
  · rw [party.gets_iff v st hle (by omega)] at hgets
    obtain ⟨inBufout, p, n, hdec, htake⟩ := hgets
    have hlast : byteAt (recvBuf (zeros (min k (maxMsg + 1))))
        ((zeros (min k (maxMsg + 1))).length - 1) = 0 := by
      rw [recvBuf_byteAt hle (by simp only [sizeofMsgCommon] at hshort; omega), byteAt_zeros]
    simp only [peerDecode, hlast] at hdec
    rw [if_neg (by decide), if_neg (by decide)] at hdec
    cases hdec
    rw [recvBuf_take hle] at htake
    rw [← htake, msgType, byteAt_zeros] at hget
    exact absurd hget (by decide)

end Payload

section Built

variable {w : ℕ → Calls} {x : Taken × ℕ} {v : PeerCalls} {st : PeerState}

/-- The type is read from the memory at the message, whose first byte it is. -/
theorem msgType_mem {q : Taken} (h : sizeofMsgCommon ≤ q.item.msg.length) :
    msgType q.mem = msgType q.item.msg := by
  have hpos : 0 < q.item.msg.length := Nat.lt_of_lt_of_le (by decide) h
  rw [Taken.mem, msgType, byteAt_append_left _ _ hpos, msgType]

/-- A message that was encoded is decoded when its last byte tells the encoding. -/
theorem gets_built_iff (party : Party) (hpeer : Answers (w x.2) v st)
    (hlen : sizeofMsgCommon ≤ x.1.item.msg.length) (hfits : ¬ Overflows w x) {payload : Bytes}
    (hbuilt : built (w x.2) x.1 = some payload) :
    party.Gets v st payload x.1.item.msg ↔ Recognised (w x.2) v x.1.item.msg := by
  unfold built at hbuilt
  unfold Overflows at hfits
  rw [msgType_mem hlen] at hbuilt hfits
  unfold Recognised
  by_cases hget : msgType x.1.item.msg = msgGetAes
  · rw [if_pos hget, Option.map_eq_some_iff] at hbuilt
    obtain ⟨cipher, hcipher, hwire⟩ := hbuilt
    rw [Option.bind_eq_some_iff] at hcipher
    obtain ⟨pubkey, hkey, hrsa⟩ := hcipher
    rw [if_pos hget] at hfits ⊢
    have hroom : cipher.length + 1 ≤ maxMsg + 1 := by
      by_contra hlong
      exact hfits ⟨pubkey, hkey, Or.inr ⟨cipher, hrsa, by omega⟩⟩
    rw [← hwire]
    exact iff_of_true (gets_rsa party hpeer hkey hrsa hlen hroom) ⟨pubkey, hkey, by rw [hrsa]; rfl⟩
  · by_cases hntf : msgType x.1.item.msg = msgNtf
    · rw [if_neg hget, if_pos hntf] at hbuilt
      split_ifs at hbuilt with hfit
      rw [Option.map_eq_some_iff] at hbuilt
      obtain ⟨⟨cipher, tag⟩, hgcm, hwire⟩ := hbuilt
      rw [if_neg hget, ← hwire]
      rw [← x.1.item.size_eq] at hfit
      exact iff_of_true (gets_aes party hpeer hgcm hlen hfit) fun hne => absurd hntf hne
    · rw [if_neg hget, if_neg hntf, Option.some_inj] at hbuilt
      rw [if_neg hget] at hfits
      have hle : x.1.item.msg.length ≤ maxMsg + 1 := by
        by_contra hlong
        rw [← x.1.item.size_eq] at hfits
        exact hfits ⟨hntf, by omega⟩
      rw [if_neg hget, ← hbuilt, gets_plain_iff party hlen hle]
      exact ⟨fun h _ => h, fun h => h hntf⟩

/-- A reply that could not be encoded is not recognised. -/
theorem not_recognised (hlen : sizeofMsgCommon ≤ x.1.item.msg.length)
    (hget : msgType x.1.item.msg = msgGetAes) (hnone : built (w x.2) x.1 = none) :
    ¬ Recognised (w x.2) v x.1.item.msg := by
  unfold Recognised
  rw [if_pos hget]
  rintro ⟨pubkey, hkey, hsome⟩
  rw [Option.mem_def] at hkey
  unfold built at hnone
  rw [msgType_mem hlen, if_pos hget, Option.map_eq_none_iff, hkey, Option.bind_some] at hnone
  rw [hnone] at hsome
  cases hsome

end Built

/-- Each datagram that a drain sends for a message of at least a header decodes to that message
at a peer with the keys, client or notifier, exactly when its last byte tells the encoding. -/
theorem decoding_undoes_encoding_iff (party : Party) {T : Table} {w : ℕ → Calls}
    {chain : List Taken} {c : Carry} {outs : List Sent}
    (hrun : sendToDst T true w chain = some (c, outs)) {s : Sent} (hs : s ∈ outs)
    (hlen : sizeofMsgCommon ≤ s.item.nMsg) {v : PeerCalls} {st : PeerState}
    (hpeer : Answers (w s.index) v st) :
    party.Gets v st s.payload s.item.msg ↔ Recognised (w s.index) v s.item.msg := by
  obtain ⟨x, _, c₀, c₁, hiter⟩ := mem_loop_outputs hrun hs
  obtain ⟨buffer, sn, err, henc, hpayload, hitem, hindex⟩ := sendIter_next_inv hiter
  rw [hindex] at hpeer ⊢
  have hmsg : sizeofMsgCommon ≤ x.1.item.msg.length := by
    rw [← hitem, s.item.size_eq]
    exact hlen
  have hfits : ¬ Overflows w x := by
    intro hover
    rw [encodeMsg_fault hover] at henc
    cases henc
  rw [hitem]
  rcases encodeMsg_payload henc with hbuilt | ⟨hnone, hget, hzero⟩
  · rw [← hpayload] at hbuilt
    exact gets_built_iff party hpeer hmsg hfits hbuilt
  · -- the reply has no encoding, and cleared bytes are sent
    rw [msgType_mem hmsg] at hget
    refine iff_of_false ?_ (not_recognised hmsg hget hnone)
    rw [hpayload, hzero]
    exact not_gets_cleared party hget _

/-- The table in which the device `d1` is registered. -/
def d1Table : Table :=
  (exec tableStep emptyTable [.reg (header msgReg gNtfCli [100, 49] []) 100 none none]).1

/-- The calls with the recorded encryption, and no key of RSA. -/
def sampleCalls : Calls := ⟨none, sampleGcm, 0⟩

theorem sample_answers : Answers sampleCalls ⟨none, sampleGcm⟩ ⟨aesKey, ivBytes, true, []⟩ :=
  ⟨rfl, sampleGcm_lawful, ⟨rfl, rfl⟩, by simp [sampleCalls]⟩

/-- The one datagram of a drain. -/
theorem drain_one {β : Type} {g : Sent → β} {y : β} {item : FwdItem}
    (h : (sendToDst d1Table true (fun _ => sampleCalls) [⟨item, []⟩]).map
      (fun r => r.2.map g) = some [y]) :
    ∃ c outs, sendToDst d1Table true (fun _ => sampleCalls) [⟨item, []⟩] = some (c, outs) ∧
      ∃ s ∈ outs, g s = y := by
  obtain ⟨⟨c, outs⟩, hrun, hmap⟩ := Option.map_eq_some_iff.mp h
  have hmem : y ∈ outs.map g := by
    rw [hmap]
    exact List.mem_singleton_self _
  exact ⟨c, outs, hrun, List.mem_map.mp hmem⟩

theorem decoding_undoes_encoding_sample :
    ∃ c outs s, sendToDst d1Table true (fun _ => sampleCalls)
        [⟨⟨header msgNtf gNtfCli [100, 49] [], 100, by decide⟩, []⟩] = some (c, outs) ∧ s ∈ outs ∧
      Party.client.Gets ⟨none, sampleGcm⟩ ⟨aesKey, ivBytes, true, []⟩ s.payload
        (header msgNtf gNtfCli [100, 49] []) := by
  obtain ⟨c, outs, hrun, s, hs, hmsg⟩ := @drain_one _ (fun s => s.item.msg)
    (header msgNtf gNtfCli [100, 49] []) ⟨header msgNtf gNtfCli [100, 49] [], 100, by decide⟩
    (by decide +kernel)
  have hlen : sizeofMsgCommon ≤ s.item.nMsg := by
    rw [← s.item.size_eq, hmsg]
    decide
  have hrecognised : Recognised sampleCalls ⟨none, sampleGcm⟩ s.item.msg := by
    rw [hmsg, Recognised, if_neg (by decide)]
    exact fun hne => absurd rfl hne
  have hgets := (decoding_undoes_encoding_iff Party.client hrun hs hlen sample_answers).mpr
    hrecognised
  rw [hmsg] at hgets
  exact ⟨c, outs, s, hrun, hs, hgets⟩

/-- A plain message of the server whose last byte is that of AES. -/
def endsInAes : Bytes := header msgTra fSrvCli [100, 49] [] ++ [encryptAes]

/-- The client takes it for an encrypted one and drops it. -/
theorem plain_message_misread :
    ¬ ∀ (party : Party) (T : Table) (w : ℕ → Calls) (chain : List Taken) (c : Carry)
      (outs : List Sent), sendToDst T true w chain = some (c, outs) → ∀ s ∈ outs,
      sizeofMsgCommon ≤ s.item.nMsg → ∀ (v : PeerCalls) (st : PeerState),
      Answers (w s.index) v st → party.Gets v st s.payload s.item.msg := by
  intro h
  obtain ⟨c, outs, hrun, s, hs, hsent⟩ := @drain_one _ (fun s => (s.payload, s.item.msg))
    (endsInAes, endsInAes) ⟨endsInAes, 101, by decide⟩ (by decide +kernel)
  obtain ⟨hpayload, hmsg⟩ := Prod.ext_iff.mp hsent
  dsimp only at hpayload hmsg
  have hlen : sizeofMsgCommon ≤ s.item.nMsg := by
    rw [← s.item.size_eq, hmsg]
    decide
  have hgets := h Party.client _ _ _ _ _ hrun s hs hlen _ _ sample_answers
  rw [hpayload, hmsg, gets_plain_iff Party.client (by decide) (by decide)] at hgets
  exact hgets.1 (by decide)

end MemoryLeak.Notify
