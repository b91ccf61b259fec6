import MemoryLeak.Notify.Server

/-!
# The receive loops of the client and the notifier

Both decode a datagram in the same way, and install the key that a reply of the
server carries at a fixed place. The client also answers a notification.
-/
namespace MemoryLeak.Notify
open MemoryLeak.CBytes

/-- What a peer keeps: `aes256_key`, `aes256_iv`, `got_aes` and its `bufout`. -/
structure PeerState where
  aes256Key : Bytes
  aes256Iv : Bytes
  gotAes : Bool
  bufout : Bytes

/-- What the calls made for one datagram return. -/
structure PeerCalls where
  getCliPrv : Option RsaPrv
  gcm : Gcm

/-- The message a turn has decoded, and the feedback it sends. -/
structure Received where
  msg : Bytes
  feedback : Option Bytes

/-- The decoding by the last byte. Without a private key, or when `rsa_dec` fails,
the datagram stays as it is. -/
def peerDecode (w : PeerCalls) (st : PeerState) (buffer : Bytes) (n : ℕ) : Decoded :=
  let enc := byteAt buffer (n - 1)
  if enc = encryptCliPub then
    match w.getCliPrv.bind (rsaDec · (buffer.take (n - 1))) with
    | none => .message false buffer n
    | some out =>
      if out.length ≤ maxMsg + 1 then .message false (memcpy (zeros (maxMsg + 1)) 0 out) out.length
      else .fault
  else if enc = encryptAes then
    match msgAesDec w.gcm st.aes256Key st.aes256Iv buffer st.bufout n (maxMsg + 1) with
    | (bufout, none) => .ignored bufout
    | (bufout, some n) => .message true bufout n
  else .message false buffer n

/-- The `do` block for `MSG_GET_AES`. -/
def installKey (st : PeerState) (p : Bytes) : PeerState :=
  if arrToUint16 (msgLen p) lenU16int ≠ aesBytes + aesIvBytes then st
  else
    { st with
      aes256Key := (msgData p).take aesBytes
      aes256Iv := ((msgData p).drop aesBytes).take aesIvBytes
      gotAes := true }

/-- The client: the answer to a notification, and the reply with the key. -/
def clientHandle (st : PeerState) (inBufout : Bool) (p : Bytes) (n : ℕ) : PeerState × Received :=
  if ifroute p = gNtfCli then
    let p' := setLen (setIfroute p gCliNtf) (zeros lenU16int)
    ({ st with bufout := if inBufout then p' else st.bufout }, ⟨p.take n, some p'⟩)
  else
    let st := { st with bufout := if inBufout then p else st.bufout }
    if ifroute p = fSrvCli ∧ msgType p = msgGetAes then (installKey st p, ⟨p.take n, none⟩)
    else (st, ⟨p.take n, none⟩)

/-- The notifier: the reply with the key. -/
def notifierHandle (st : PeerState) (inBufout : Bool) (p : Bytes) (n : ℕ) : PeerState × Received :=
  let st := { st with bufout := if inBufout then p else st.bufout }
  if ifroute p = fSrvNtf ∧ msgType p = msgGetAes then (installKey st p, ⟨p.take n, none⟩)
  else (st, ⟨p.take n, none⟩)

/-- The programs that talk to the server. -/
inductive Party where
  | client
  | notifier

namespace Party

/-- The route of its requests. -/
def request : Party → UInt8
  | client => gCliSrv
  | notifier => gNtfSrv

/-- The route of the server's replies to it. -/
def reply : Party → UInt8
  | client => fSrvCli
  | notifier => fSrvNtf

def handle : Party → PeerState → Bool → Bytes → ℕ → PeerState × Received
  | client => clientHandle
  | notifier => notifierHandle

/-- One turn of the receive loop on the datagram `d`. -/
def turn (party : Party) (w : PeerCalls) (st : PeerState) (d : Bytes) :
    Option (PeerState × Option Received) :=
  let n := min d.length (maxMsg + 1)
  if n < 1 then some (st, none)
  else if n < sizeofMsgCommon then some (st, none)
  else
    match peerDecode w st (recvBuf d) n with
    | .fault => none
    | .ignored bufout => some ({ st with bufout := bufout }, none)
    | .message inBufout p n =>
      let r := party.handle st inBufout p n
      some (r.1, some r.2)

end Party

/-- A reply with the key is installed. -/
theorem Party.handle_reply (party : Party) (st : PeerState) {p : Bytes}
    (hroute : ifroute p = party.reply) (htype : msgType p = msgGetAes) (n : ℕ) :
    (party.handle st false p n).1 = installKey st p := by
  cases party with
  | client =>
    have hne : ifroute p ≠ gNtfCli := by
      rw [hroute]
      decide
    rw [Party.handle, clientHandle, if_neg hne, if_pos ⟨hroute, htype⟩]
    rfl
  | notifier =>
    rw [Party.handle, notifierHandle, if_pos ⟨hroute, htype⟩]
    rfl

/-! ### Decoding what was encoded -/

theorem recvBuf_take {d : Bytes} (h : d.length ≤ maxMsg + 1) : (recvBuf d).take d.length = d := by
  rw [recvBuf, List.take_of_length_le h, memcpy_zeros_take]

theorem recvBuf_byteAt {d : Bytes} (h : d.length ≤ maxMsg + 1) {i : ℕ} (hi : i < d.length) :
    byteAt (recvBuf d) i = byteAt d i := by
  rw [← byteAt_take _ hi, recvBuf_take h]

/-- The last byte of a datagram with a trailer. -/
theorem recvBuf_trailer {d : Bytes} {enc : UInt8} (h : (d ++ [enc]).length ≤ maxMsg + 1) :
    byteAt (recvBuf (d ++ [enc])) ((d ++ [enc]).length - 1) = enc := by
  rw [recvBuf_byteAt h (by simp)]
  simp [byteAt]

theorem recvBuf_front {d : Bytes} (h : d.length ≤ maxMsg + 1) :
    (recvBuf d).take (d.length - 1) = d.take (d.length - 1) := by
  have htake := congrArg (List.take (d.length - 1)) (recvBuf_take h)
  rwa [List.take_take, Nat.min_eq_left (by omega)] at htake

theorem recvBuf_body {d : Bytes} {enc : UInt8} (h : (d ++ [enc]).length ≤ maxMsg + 1) :
    (recvBuf (d ++ [enc])).take ((d ++ [enc]).length - 1) = d := by
  rw [recvBuf_front h]
  simp

/-- A datagram encrypted for the peer decodes to its text in a cleared buffer. -/
theorem peerDecode_rsa {w : PeerCalls} {prv : RsaPrv} {cipher out : Bytes}
    (hprv : w.getCliPrv = some prv) (hdec : rsaDec prv cipher = some out)
    (hout : out.length ≤ maxMsg + 1) (hle : (cipher ++ [encryptCliPub]).length ≤ maxMsg + 1)
    (st : PeerState) :
    peerDecode w st (recvBuf (cipher ++ [encryptCliPub])) (cipher ++ [encryptCliPub]).length =
      .message false (out ++ zeros (maxMsg + 1 - out.length)) out.length := by
  simp only [peerDecode, recvBuf_trailer hle, recvBuf_body hle, hprv, Option.bind_some, hdec,
    if_pos hout, if_true, memcpy_zeros]

/-- The length of an encrypted message with its tag and trailer. -/
theorem encrypted_length {G : Gcm} {key iv plain cipher tag : Bytes}
    (henc : G.encrypt key iv plain = some (cipher, tag)) :
    (cipher ++ tag ++ [encryptAes]).length = plain.length + aesIvBytes + 1 := by
  obtain ⟨hc, ht⟩ := G.encrypt_length _ _ _ _ _ henc
  rw [List.length_append, List.length_append, hc, ht, List.length_singleton]

theorem encrypted_length_le {G : Gcm} {key iv plain cipher tag : Bytes}
    (henc : G.encrypt key iv plain = some (cipher, tag))
    (hfit : plain.length + 1 + aesIvBytes ≤ maxMsg + 1) :
    (cipher ++ tag ++ [encryptAes]).length ≤ maxMsg + 1 := by
  rw [encrypted_length henc]
  omega

/-- `msg_aes_dec` undoes `msg_aes_enc` on a received datagram. -/
theorem msgAesDec_recvBuf {G : Gcm} {key iv plain cipher tag : Bytes}
    (henc : G.encrypt key iv plain = some (cipher, tag))
    (hdec : G.decrypt key iv cipher tag = (plain, true))
    (hfit : plain.length + 1 + aesIvBytes ≤ maxMsg + 1) (buf : Bytes) :
    msgAesDec G key iv (recvBuf (cipher ++ tag ++ [encryptAes])) buf
      (cipher ++ tag ++ [encryptAes]).length (maxMsg + 1) =
      (memcpy buf 0 plain, some plain.length) := by
  obtain ⟨hc, ht⟩ := G.encrypt_length _ _ _ _ _ henc
  have hlen := encrypted_length henc
  have hbody : (recvBuf (cipher ++ tag ++ [encryptAes])).take
      ((cipher ++ tag ++ [encryptAes]).length - 1) = cipher ++ tag := recvBuf_body (by omega)
  rw [hlen] at hbody ⊢
  simp only [aesIvBytes, maxMsg] at *
  set d := recvBuf (cipher ++ tag ++ [encryptAes])
  have hcipher : d.take plain.length = cipher := by
    have h1 := congrArg (List.take plain.length) hbody
    rwa [List.take_take, Nat.min_eq_left (by omega), List.take_left' hc] at h1
  have htag : (d.drop plain.length).take 16 = tag := by
    have h1 := congrArg (List.drop plain.length) hbody
    have hsub : plain.length + 16 + 1 - 1 - plain.length = 16 := by omega
    rwa [List.drop_take, List.drop_left' hc, hsub] at h1
  have hidx : plain.length + 16 + 1 - 1 - 16 = plain.length := by omega
  rw [msgAesDec, if_neg (by simp only [maxMsg]; omega), if_neg (by simp only [aesIvBytes]; omega),
    if_neg (by simp only [aesIvBytes]; omega)]
  simp only [aesIvBytes, hidx, hcipher, htag, hdec, if_true]

/-- The server decodes what was encrypted under its key. -/
theorem decode_aes {w : RecvCalls} {plain cipher tag : Bytes}
    (henc : w.gcm.encrypt aesKey ivBytes plain = some (cipher, tag))
    (hdec : w.gcm.decrypt aesKey ivBytes cipher tag = (plain, true))
    (hfit : plain.length + 1 + aesIvBytes ≤ maxMsg + 1) (bufout : Bytes) :
    decode w (recvBuf (cipher ++ tag ++ [encryptAes])) bufout
        (cipher ++ tag ++ [encryptAes]).length =
      .message true (memcpy bufout 0 plain) plain.length := by
  have hle := encrypted_length_le henc hfit
  have hne : encryptAes ≠ encryptSrvPub := by decide
  simp only [decode, recvBuf_trailer hle, if_neg hne, if_true, msgAesDec_recvBuf henc hdec hfit]

/-- So does a peer that has the key it was encrypted under. -/
theorem peerDecode_aes {w : PeerCalls} {st : PeerState} {plain cipher tag : Bytes}
    (henc : w.gcm.encrypt st.aes256Key st.aes256Iv plain = some (cipher, tag))
    (hdec : w.gcm.decrypt st.aes256Key st.aes256Iv cipher tag = (plain, true))
    (hfit : plain.length + 1 + aesIvBytes ≤ maxMsg + 1) :
    peerDecode w st (recvBuf (cipher ++ tag ++ [encryptAes]))
        (cipher ++ tag ++ [encryptAes]).length =
      .message true (memcpy st.bufout 0 plain) plain.length := by
  have hle := encrypted_length_le henc hfit
  have hne : encryptAes ≠ encryptCliPub := by decide
  simp only [peerDecode, recvBuf_trailer hle, if_neg hne, if_true, msgAesDec_recvBuf henc hdec hfit]

end MemoryLeak.Notify
