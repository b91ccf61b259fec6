import MemoryLeak.Notify.Peers

/-!
# Delivery of a notification

A notification from `notifier`, through the server's turn, its queue and a drain,
to the client's turn: three encryptions and decryptions over buffers of 1201 bytes.
The lengths fit at every hop. Whether the drain finds the device depends on the id
alone.
-/
namespace MemoryLeak.Notify
open MemoryLeak.CBytes MemoryLeak.Runs

/-- The `buffer` of `notifier` with its message, `text` being the string it sends. -/
def notifierBuffer (devIid ntfIid text : Bytes) (t : Timespec) : Bytes :=
  let n := maxMsg - sizeofMsgCommon - 1 - aesIvBytes
  let buffer := memcpy (zeros (maxMsg + 1)) 0 [msgNtf]
  let buffer := setIfroute buffer gNtfCli
  let buffer := memcpy buffer offDevId ((devIid ++ [0]).take (min lenDevid (strlen devIid + 1)))
  let buffer := memcpy buffer offNtfId ((ntfIid ++ [0]).take (min lenDevid (strlen ntfIid + 1)))
  let buffer := setLen buffer (uint16ToArr (UInt16.ofNat n) lenU16int)
  let buffer := memcpy buffer sizeofMsgCommon (text.take (min (strlen text) (n - 1)) ++ [0])
  putTimeToMsg buffer (some t)

/-- What `notifier` sends of its `buffer`, the message being `lenin` bytes of it. -/
def notifierSend (G : Gcm) (st : PeerState) (buffer : Bytes) (lenin : ℕ) : Option Bytes :=
  if st.gotAes then
    (msgAesEnc G st.aes256Key st.aes256Iv (buffer.take lenin) (zeros (maxMsg + 1))
      (maxMsg + 1)).map fun r => r.1.take r.2
  else some (memcpy buffer maxMsg [encryptNon])

/-- A notification for the device `dev` in the notifier's buffer, with room for the
tag and the trailer. -/
structure Notification (dev : Vector UInt8 lenDevid) where
  buffer : Bytes
  lenin : ℕ
  buffer_length : buffer.length = maxMsg + 1
  header_le : sizeofMsgCommon ≤ lenin
  le : lenin ≤ maxMsg - aesIvBytes
  type_eq : msgType buffer = msgNtf
  route_eq : ifroute buffer = gNtfCli
  dev_eq : (devId buffer).take lenDevid = dev.toList

/-- The bytes that are encrypted. -/
def Notification.msg {dev : Vector UInt8 lenDevid} (m : Notification dev) : Bytes :=
  m.buffer.take m.lenin

/-- A table reached by registrations and trackings, with the item of the device
`dev`, whose address comes from a tracking. -/
structure Located (dev : Vector UInt8 lenDevid) where
  ops : List TableOp
  sized : ∀ op ∈ ops, op.Sized
  it : HashItem
  registered : RegisteredFor (exec tableStep emptyTable ops).1 dev.toList it
  tracked : ∃ msg addr, TableOp.track msg addr ∈ ops ∧
    strncmp lenDevid dev.toList (devId msg) = 0 ∧ it.ipv4 = addr

def Located.table {dev : Vector UInt8 lenDevid} (x : Located dev) : Table :=
  (exec tableStep emptyTable x.ops).1

/-- The peer holds the key and the iv of the server. -/
structure HasKey (st : PeerState) : Prop where
  key : st.aes256Key = aesKey
  iv : st.aes256Iv = ivBytes

/-- Any client with the key decodes the datagram to `m`. -/
def ClientGets (G : Gcm) (payload m : Bytes) : Prop :=
  ∀ own cli, HasKey cli → ∃ cli' feedback,
    Party.client.turn ⟨own, G⟩ cli payload = some (cli', some ⟨m, feedback⟩)

/-- Every drain that comes to the item sends the client at `ipv4` a datagram that it
decodes to `m`. -/
def DrainsTo (G : Gcm) (T : Table) (item : FwdItem) (ipv4 : SockAddrIn) (m : Bytes) : Prop :=
  ∀ (sw : ℕ → Calls) (chain : List Taken) (k : ℕ) (behind : Bytes) (c : Carry) (outs : List Sent),
    (sw k).gcm = G → chain[k]? = some ⟨item, behind⟩ →
    (∀ x ∈ chain.zipIdx.take k, ¬ Stops T sw x) → sendToDst T true sw chain = some (c, outs) →
    ∃ s ∈ outs, s.index = k ∧ s.ipv4 = ipv4 ∧ ClientGets G s.payload m

/-- The way from the notifier to the client at `ipv4`. -/
def Delivered (G : Gcm) (T : Table) (ipv4 : SockAddrIn) {dev : Vector UInt8 lenDevid}
    (m : Notification dev) : Prop :=
  ∀ ntf, HasKey ntf → ntf.gotAes = true → ∃ d, notifierSend G ntf m.buffer m.lenin = some d ∧
    ∀ (prv : Option RsaPrv) (bufout : Vector UInt8 (maxMsg + 1)), ∃ b q,
      mainTurn ⟨prv, G⟩ bufout.toList d = some (b, some q) ∧ DrainsTo G T q.item ipv4 m.msg

/-! ### The hops -/

namespace Notification

variable {dev : Vector UInt8 lenDevid} (m : Notification dev)

@[simp] theorem msg_length : m.msg.length = m.lenin := by
  have := m.le
  have := m.buffer_length
  simp only [msg, List.length_take, maxMsg, aesIvBytes] at *
  omega

theorem byteAt_msg {i : ℕ} (hi : i < sizeofMsgCommon) : byteAt m.msg i = byteAt m.buffer i :=
  byteAt_take _ (hi.trans_le m.header_le)

theorem msg_type (behind : Bytes) : msgType (m.msg ++ behind) = msgNtf := by
  have := m.header_le
  rw [msgType, byteAt_append_left _ _ (by simp at *; omega), m.byteAt_msg (by decide)]
  exact m.type_eq

theorem msg_route (behind : Bytes) : ifroute (m.msg ++ behind) = gNtfCli := by
  have := m.header_le
  rw [ifroute, byteAt_append_left _ _ (by simp at *; omega), m.byteAt_msg (by decide)]
  exact m.route_eq

theorem msg_dev (behind : Bytes) : (devId (m.msg ++ behind)).take lenDevid = dev.toList := by
  have := m.header_le
  have hle : offDevId + lenDevid ≤ m.msg.length := by simp at *; omega
  rw [← m.dev_eq, devId, devId, List.take_drop, List.take_drop,
    List.take_append_of_le_length hle, msg, List.take_take, Nat.min_eq_left (by simpa using hle)]

theorem msg_idKey (behind : Bytes) : idKey (devId (m.msg ++ behind)) = idKey dev.toList := by
  rw [idKey, ← cstr_take le_rfl, m.msg_dev behind, idKey]

end Notification

section Hops

variable {G : Gcm} {dev : Vector UInt8 lenDevid} (m : Notification dev) {cipher tag : Bytes}

/-- The notifier's datagram. -/
theorem notifierSend_eq (henc : G.encrypt aesKey ivBytes m.msg = some (cipher, tag))
    {ntf : PeerState} (hkey : HasKey ntf) (hgot : ntf.gotAes = true) :
    notifierSend G ntf m.buffer m.lenin = some (cipher ++ tag ++ [encryptAes]) := by
  have hle := m.le
  have hlen := m.msg_length
  have hsome : (msgAesEnc G aesKey ivBytes m.msg (zeros (maxMsg + 1)) (maxMsg + 1)).isSome := by
    rw [msgAesEnc_isSome_iff, henc]
    exact ⟨by simp at *; omega, rfl⟩
  obtain ⟨⟨b, n⟩, hb⟩ := Option.isSome_iff_exists.mp hsome
  obtain ⟨cipher', tag', henc', _, _, _, htake⟩ := msgAesEnc_take (by simp) hb
  cases henc.symm.trans henc'
  rw [notifierSend, if_pos hgot, hkey.key, hkey.iv]
  change (msgAesEnc G aesKey ivBytes m.msg _ _).map _ = _
  rw [hb, Option.map_some, htake]

theorem Notification.fits : m.msg.length + 1 + aesIvBytes ≤ maxMsg + 1 := by
  have := m.le
  simp at *
  omega

/-- The server queues the notification as the notifier encrypted it. -/
theorem mainTurn_ntf (henc : G.encrypt aesKey ivBytes m.msg = some (cipher, tag))
    (hdec : G.decrypt aesKey ivBytes cipher tag = (m.msg, true)) (prv : Option RsaPrv)
    (bufout : Vector UInt8 (maxMsg + 1)) :
    ∃ b q, mainTurn ⟨prv, G⟩ bufout.toList (cipher ++ tag ++ [encryptAes]) = some (b, some q) ∧
      q.item.msg = m.msg := by
  have hmin := m.header_le
  have hwire := encrypted_length henc
  let d : Datagram := ⟨cipher ++ tag ++ [encryptAes], by simp at *; omega,
    encrypted_length_le henc m.fits⟩
  have hdecodes : DecodesTo ⟨prv, G⟩ bufout d true (memcpy bufout.toList 0 m.msg) m.msg.length :=
    decode_aes henc hdec m.fits bufout.toList
  have hturn := mainTurn_decodesTo hdecodes
  rw [memcpy_start, routeMsg_ntf (m.msg_route _) (m.msg_type _) (by simp)] at hturn
  exact ⟨_, _, hturn, by simp [newItem]⟩

/-- The client hands on what the server encrypted. -/
theorem client_ntf (henc : G.encrypt aesKey ivBytes m.msg = some (cipher, tag))
    (hdec : G.decrypt aesKey ivBytes cipher tag = (m.msg, true)) :
    ClientGets G (cipher ++ tag ++ [encryptAes]) m.msg := by
  intro own cli hkey
  have hmin := m.header_le
  have hwire := encrypted_length henc
  have hle := encrypted_length_le henc m.fits
  rw [← hkey.key, ← hkey.iv] at henc hdec
  have hpeer := peerDecode_aes (w := ⟨own, G⟩) henc hdec m.fits
  rw [Party.turn, Nat.min_eq_left hle]
  simp only [hpeer, Party.handle, clientHandle, memcpy_start, if_pos (m.msg_route _)]
  rw [if_neg (by omega), if_neg (by simp at *; omega), List.take_left' rfl]
  exact ⟨_, _, rfl⟩

end Hops

/-! ### The lookup of the device -/

/-- For a terminated id the drain finds the item registered for it. -/
theorem findItem_registered {T : Table} (hinv : TableInv T) {id : Bytes} {it : HashItem}
    (ht : Terminated id) (hreg : RegisteredFor T id it) :
    findItem id (T (hashId id)).group = some it := by
  obtain ⟨i, hmem, hcmp⟩ := hreg
  have hk : itemKey it = idKey id := (strncmp_item_iff id it).mp hcmp
  have hgood : GoodKey (itemKey it) := by rwa [hk, goodKey_idKey]
  have hhome : homeOf (itemKey it) = hashId id := by rw [hk, homeOf_idKey ht]
  have hchain : it ∈ chains T (homeOf (itemKey it)) := by rwa [hinv.placed i it hmem hgood]
  have hfind := BucketMap.lookup_eq_some_of_mem hinv.distinct hchain
  rw [BucketMap.lookup, hhome] at hfind
  simp only [findItem, strncmp_item_iff, ← hk]
  exact hfind

theorem RegisteredFor.congr {T : Table} {a b : Bytes} {it : HashItem} (h : idKey a = idKey b)
    (hreg : RegisteredFor T a it) : RegisteredFor T b it := by
  obtain ⟨i, hmem, hcmp⟩ := hreg
  rw [strncmp_id_iff, h, ← strncmp_id_iff] at hcmp
  exact ⟨i, hmem, hcmp⟩

theorem target_ntf {dev : Vector UInt8 lenDevid} (ht : Terminated dev.toList) (x : Located dev)
    (m : Notification dev) {item : FwdItem} (hmsg : item.msg = m.msg) (behind : Bytes) :
    target x.table ⟨item, behind⟩ = some x.it.ipv4 := by
  have hid := m.msg_idKey behind
  have hdest : destId (⟨item, behind⟩ : Taken).mem = some (devId (m.msg ++ behind)) := by
    rw [Taken.mem, hmsg, destId, if_pos (m.msg_route behind)]
  have hfind := findItem_registered (table_inv x.ops x.sized)
    ((terminated_iff_of_idKey_eq hid).mpr ht) (x.registered.congr hid.symm)
  rw [target, hdest, Option.bind_some, Located.table, hfind, Option.map_some]

theorem built_ntf {w : Calls} {dev : Vector UInt8 lenDevid} (m : Notification dev) {item : FwdItem}
    (hmsg : item.msg = m.msg) {cipher tag : Bytes}
    (henc : w.gcm.encrypt aesKey ivBytes m.msg = some (cipher, tag)) (behind : Bytes) :
    built w ⟨item, behind⟩ = some (cipher ++ tag ++ [encryptAes]) := by
  have htype : msgType (⟨item, behind⟩ : Taken).mem = msgNtf := by
    rw [Taken.mem, hmsg]
    exact m.msg_type behind
  have hne : msgType (⟨item, behind⟩ : Taken).mem ≠ msgGetAes := by
    rw [htype]
    decide
  have hfit : item.nMsg + 1 + aesIvBytes ≤ maxMsg + 1 := by
    rw [← item.size_eq, hmsg]
    exact m.fits
  rw [built, if_neg hne, if_pos htype, if_pos hfit, hmsg, henc, Option.map_some]

/-- A drain that comes to the notification sends it to the registered address. -/
theorem drain_ntf {G : Gcm} {dev : Vector UInt8 lenDevid} (m : Notification dev) {T : Table}
    {ipv4 : SockAddrIn} {item : FwdItem} (hmsg : item.msg = m.msg)
    (htarget : ∀ behind, target T ⟨item, behind⟩ = some ipv4) {cipher tag : Bytes}
    (henc : G.encrypt aesKey ivBytes m.msg = some (cipher, tag))
    (hdec : G.decrypt aesKey ivBytes cipher tag = (m.msg, true)) :
    DrainsTo G T item ipv4 m.msg := by
  intro sw chain k behind c outs hG hk hbefore hrun
  let x : Taken × ℕ := (⟨item, behind⟩, k)
  have hbuilt : built (sw k) x.1 = some (cipher ++ tag ++ [encryptAes]) :=
    built_ntf m hmsg (by rw [hG, henc]) behind
  have hgoes : ¬ Stops T sw x := by
    rintro (hnone | ⟨_, hnone⟩)
    · rw [htarget behind] at hnone
      cases hnone
    · rw [hbuilt] at hnone
      cases hnone
  have hat : chain.zipIdx[k]? = some x := by
    rw [List.getElem?_zipIdx, hk]
    simp [x]
  have hreached : x ∈ reached (Stops T sw) chain.zipIdx := by
    apply mem_reached hat
    intro y hy
    rw [List.take_add_one, hat, List.mem_append] at hy
    rcases hy with hy | hy
    · exact hbefore y hy
    · rwa [show y = x by simpa using hy]
  obtain ⟨_, hall, _⟩ := sendToDst_spec hrun
  obtain ⟨s, hs, hsent⟩ := forall₂_mem_left hall hreached
  have hip : some s.ipv4 = some ipv4 := by rw [← hsent.target, htarget behind]
  refine ⟨s, hs, hsent.index, Option.some.inj hip, ?_⟩
  rw [hsent.payload _ hbuilt]
  exact client_ntf m henc hdec

/-! ### The message of the notifier -/

section Shipped

variable (devIid ntfIid text : Bytes) (t : Timespec)

/-- The buffer up to the notifier id. -/
theorem notifierBuffer_spec :
    (notifierBuffer devIid ntfIid text t).length = maxMsg + 1 ∧
      (notifierBuffer devIid ntfIid text t).take offNtfId =
        [msgNtf, gNtfCli] ++ field lenDevid (idKey devIid) := by
  have hid : ∀ s : Bytes, ((s ++ [0]).take (min lenDevid (strlen s + 1))).length ≤ lenDevid := by
    intro s
    simp
  have hcopy := fun k => take_copied_string lenDevid k devIid
  have hdev := hid devIid
  have hntf := hid ntfIid
  have hfront : setIfroute (memcpy (zeros (maxMsg + 1)) 0 [msgNtf]) gNtfCli =
      [msgNtf, gNtfCli] ++ zeros 1199 := by decide +kernel
  rw [notifierBuffer, hfront]
  generalize (devIid ++ [0]).take (min lenDevid (strlen devIid + 1)) = dev at *
  generalize (ntfIid ++ [0]).take (min lenDevid (strlen ntfIid + 1)) = ntf at *
  have h1 : memcpy ([msgNtf, gNtfCli] ++ zeros 1199) offDevId dev =
      [msgNtf, gNtfCli] ++ (dev ++ zeros (1199 - dev.length)) :=
    memcpy_append_zeros [msgNtf, gNtfCli] dev 1199
  have hlen1 : ([msgNtf, gNtfCli] ++ (dev ++ zeros (1199 - dev.length))).length = maxMsg + 1 := by
    simp at *
    omega
  have htake1 : ([msgNtf, gNtfCli] ++ (dev ++ zeros (1199 - dev.length))).take offNtfId =
      [msgNtf, gNtfCli] ++ field lenDevid (idKey devIid) := by
    rw [field, idKey, ← hcopy (1199 - dev.length) (by simp at *; omega)]
    rfl
  -- the later writes lie behind the id of the device
  obtain ⟨hlen2, htake2⟩ := memcpy_keeps (k := offNtfId) hlen1
    (show offNtfId + ntf.length ≤ maxMsg + 1 by simp at *; omega) le_rfl
  rw [← h1] at hlen2 htake2 htake1
  obtain ⟨hlen3, htake3⟩ := memcpy_keeps (k := offNtfId) (n := maxMsg + 1) hlen2
    (show offLen + (uint16ToArr (UInt16.ofNat (maxMsg - sizeofMsgCommon - 1 - aesIvBytes))
      lenU16int).length ≤ _ by simp) (by decide)
  obtain ⟨hlen4, htake4⟩ := memcpy_keeps (k := offNtfId) (n := maxMsg + 1) hlen3
    (show sizeofMsgCommon + (text.take (min (strlen text)
      (maxMsg - sizeofMsgCommon - 1 - aesIvBytes - 1)) ++ [0]).length ≤ _ by simp; omega)
    (by decide)
  have hge := le_trans (show sizeofMsgCommon ≤ maxMsg + 1 by decide) hlen4.ge
  have htime := congrArg (List.take offNtfId) (putTimeToMsg_take hge (some t))
  rw [List.take_take, List.take_take] at htime
  refine ⟨(putTimeToMsg_length hge (some t)).trans hlen4, ?_⟩
  exact htime.trans (htake4.trans (htake3.trans (htake2.trans htake1)))

/-- The id field of the message. -/
def shippedDev : Vector UInt8 lenDevid := ⟨⟨field lenDevid (idKey devIid)⟩, by simp [field]⟩

/-- The notification that `notifier` sends: its whole buffer less the room for tag
and trailer. -/
def shippedNotification : Notification (shippedDev devIid) where
  buffer := notifierBuffer devIid ntfIid text t
  lenin := maxMsg - aesIvBytes
  buffer_length := (notifierBuffer_spec devIid ntfIid text t).1
  header_le := by decide
  le := le_rfl
  type_eq := by
    rw [msgType, ← byteAt_take _ (show 0 < offNtfId by decide),
      (notifierBuffer_spec devIid ntfIid text t).2]
    rfl
  route_eq := by
    rw [ifroute, ← byteAt_take _ (show offIfroute < offNtfId by decide),
      (notifierBuffer_spec devIid ntfIid text t).2]
    rfl
  dev_eq := by
    rw [devId, List.take_drop, show offDevId + lenDevid = offNtfId from rfl,
      (notifierBuffer_spec devIid ntfIid text t).2]
    rfl

theorem shippedDev_terminated (h : Terminated devIid) : Terminated (shippedDev devIid).toList := by
  have hkey : idKey (field lenDevid (idKey devIid)) = idKey devIid := by
    rw [idKey, field, cstr_take le_rfl]
    exact cstr_append_zeros (fun _ => ne_zero_of_mem_cstr) (cstr_length_le _ _)
  exact (terminated_iff_of_idKey_eq hkey).mpr h

end Shipped

/-! ### A device registered and tracked -/

section Register

variable (dev : Vector UInt8 lenDevid) (addr : SockAddrIn)

/-- The header of a message for the device. -/
def devHeader (type : UInt8) (ntf : Bytes) : Bytes := header type gNtfCli dev.toList ntf

theorem devHeader_length (type : UInt8) (ntf : Bytes) :
    (devHeader dev type ntf).length = sizeofMsgCommon := by
  simp [devHeader, header, field]

theorem devId_devHeader (type : UInt8) (ntf : Bytes) :
    devId (devHeader dev type ntf) = dev.toList ++ (field lenDevid ntf ++ zeros 18) := by
  have hfield : field lenDevid dev.toList = dev.toList := by
    rw [field, List.take_left' (by simp)]
  simp [devId, devHeader, header, hfield]

theorem take_devId_devHeader (type : UInt8) (ntf : Bytes) :
    (devId (devHeader dev type ntf)).take lenDevid = dev.toList := by
  rw [devId_devHeader, List.take_left' (by simp)]

/-- Its registration and one tracking. -/
def registerOps : List TableOp :=
  [.reg (devHeader dev msgReg []) sizeofMsgCommon none none, .track (devHeader dev msgTra []) addr]

theorem registerOps_table : (exec tableStep emptyTable (registerOps dev addr)).1 =
    Function.update emptyTable (hashId (devId (devHeader dev msgReg [])))
      ⟨1, [⟨addr, devHeader dev msgReg []⟩]⟩ := by
  have hlen := devHeader_length dev msgReg []
  have hid : devId (devHeader dev msgTra []) = devId (devHeader dev msgReg []) := rfl
  have hself : ∀ id : Bytes, strncmp lenDevid id id = 0 := fun _ => (strncmp_id_iff _ _).mpr rfl
  have hreg : (tableStep emptyTable (.reg (devHeader dev msgReg []) sizeofMsgCommon none none)).1 =
      Function.update emptyTable (hashId (devId (devHeader dev msgReg [])))
        ⟨1, [⟨noAddr, devHeader dev msgReg []⟩]⟩ := by
    simp only [tableStep, regToTable, emptyTable, putPubkeyMsg, List.take_of_length_le hlen.le]
    rfl
  simp only [registerOps, exec_cons, exec_nil, hreg]
  simp [tableStep, hlTrackMsg, chainWalk, hid, hself, HashItem.setIpv4]

/-- The device registered and tracked in an empty table. -/
def registerOnly : Located dev where
  ops := registerOps dev addr
  sized := by
    intro op hop
    simp only [registerOps, List.mem_cons, List.not_mem_nil, or_false] at hop
    rcases hop with rfl | rfl
    · exact ⟨le_rfl, (devHeader_length dev msgReg []).ge⟩
    · trivial
  it := ⟨addr, devHeader dev msgReg []⟩
  registered := by
    refine ⟨hashId (devId (devHeader dev msgReg [])), ?_, ?_⟩
    · rw [registerOps_table, Function.update_self]
      exact List.mem_singleton_self _
    · rw [strncmp_id_iff, idKey, idKey, ← cstr_take le_rfl (devId _), take_devId_devHeader]
  tracked := by
    refine ⟨devHeader dev msgTra [], addr, by simp [registerOps], ?_, rfl⟩
    rw [strncmp_id_iff, idKey, idKey, ← cstr_take le_rfl (devId _), take_devId_devHeader]

/-- A header alone as a notification. -/
def bareNotification (ntf : Bytes) : Notification dev where
  buffer := devHeader dev msgNtf ntf ++ zeros 1101
  lenin := sizeofMsgCommon
  buffer_length := by simp [devHeader_length]
  header_le := le_rfl
  le := by decide
  type_eq := rfl
  route_eq := rfl
  dev_eq := by
    have hle : offDevId + lenDevid ≤ (devHeader dev msgNtf ntf).length := by
      rw [devHeader_length]
      decide
    rw [devId, List.take_drop, List.take_append_of_le_length hle, ← List.take_drop]
    exact take_devId_devHeader dev msgNtf ntf

theorem bareNotification_msg (ntf : Bytes) :
    (bareNotification dev ntf).msg = devHeader dev msgNtf ntf :=
  List.take_left' (devHeader_length dev msgNtf ntf)

/-- Looked up under an unterminated id, a notification with the notifier id 1 finds
an empty bucket. -/
theorem target_bareNotification (ht : ¬ Terminated dev.toList) {item : FwdItem}
    (hmsg : item.msg = (bareNotification dev [1]).msg) :
    target (registerOnly dev addr).table ⟨item, []⟩ = none := by
  have htake : dev.toList.take lenDevid = dev.toList := List.take_of_length_le (by simp)
  have hne := hashId_append_ne ht
  rw [htake] at hne
  have hreg : devId (devHeader dev msgReg []) = dev.toList ++ 0 :: zeros 57 :=
    devId_devHeader dev msgReg []
  have hntf : devId (devHeader dev msgNtf [1]) = dev.toList ++ 1 :: zeros 57 :=
    devId_devHeader dev msgNtf [1]
  have hdest : destId (⟨item, []⟩ : Taken).mem = some (dev.toList ++ 1 :: zeros 57) := by
    rw [Taken.mem, hmsg, destId, if_pos ((bareNotification dev [1]).msg_route []),
      bareNotification_msg, List.append_nil, hntf]
  rw [target, hdest, Option.bind_some, Located.table, registerOnly, registerOps_table, hreg,
    Function.update_of_ne hne.symm]
  rfl

end Register

/-! ### Delivery -/

theorem delivered_of_terminated {G : Gcm} (hG : G.Lawful) {dev : Vector UInt8 lenDevid}
    (ht : Terminated dev.toList) (x : Located dev) (m : Notification dev) :
    Delivered G x.table x.it.ipv4 m := by
  obtain ⟨⟨cipher, tag⟩, henc⟩ := Option.isSome_iff_exists.mp (hG.total aesKey ivBytes m.msg)
  have hdec := hG.undo _ _ _ _ _ henc
  intro ntf hkey hgot
  refine ⟨_, notifierSend_eq m henc hkey hgot, ?_⟩
  intro prv bufout
  obtain ⟨b, q, hturn, hmsg⟩ := mainTurn_ntf m henc hdec prv bufout
  exact ⟨b, q, hturn, drain_ntf m hmsg (target_ntf ht x m hmsg) henc hdec⟩

/-- The shipped notifier reaches every device whose id is shorter than its field. -/
theorem shipped_delivered {G : Gcm} (hG : G.Lawful) {devIid : Bytes} (h : Terminated devIid)
    (ntfIid text : Bytes) (t : Timespec)
    (x : Located (shippedDev devIid)) :
    Delivered G x.table x.it.ipv4 (shippedNotification devIid ntfIid text t) :=
  delivered_of_terminated hG (shippedDev_terminated devIid h) x _

/-- The drain of a notification that finds no item ends without a datagram. -/
theorem not_delivered_of_no_target {G : Gcm} (hG : G.Lawful) {dev : Vector UInt8 lenDevid}
    {m : Notification dev} {T : Table}
    (htarget : ∀ item : FwdItem, item.msg = m.msg → target T ⟨item, []⟩ = none)
    (ipv4 : SockAddrIn) : ¬ Delivered G T ipv4 m := by
  intro h
  obtain ⟨⟨cipher, tag⟩, henc⟩ := Option.isSome_iff_exists.mp (hG.total aesKey ivBytes m.msg)
  have hkey : HasKey ⟨aesKey, ivBytes, true, []⟩ := ⟨rfl, rfl⟩
  obtain ⟨d, hd, hway⟩ := h _ hkey rfl
  cases hd.symm.trans (notifierSend_eq m henc hkey rfl)
  obtain ⟨b, q, hturn, hdrain⟩ := hway none (Vector.replicate _ 0)
  obtain ⟨b', q', hturn', hmsg⟩ := mainTurn_ntf m henc (hG.undo _ _ _ _ _ henc) none
    (Vector.replicate _ 0)
  cases hturn.symm.trans hturn'
  let sw : ℕ → Calls := fun _ => ⟨none, G, 0⟩
  have hstops : Stops T sw (⟨q.item, []⟩, 0) := Or.inl (htarget q.item hmsg)
  have hreached : reached (Stops T sw) [(⟨q.item, []⟩ : Taken)].zipIdx = [] :=
    reached_cons_of_stops hstops []
  have hfits : ∀ y ∈ reached (Stops T sw) [(⟨q.item, []⟩ : Taken)].zipIdx, ¬ Overflows sw y := by
    rw [hreached]
    simp
  obtain ⟨c, outs, hrun, hall, _⟩ := sendToDst_some hfits
  rw [hreached, List.forall₂_nil_left_iff] at hall
  obtain ⟨s, hs, _⟩ := hdrain sw _ 0 [] c outs rfl rfl (by simp) hrun
  rw [hall] at hs
  cases hs

/-- Every notification for a device reaches the client exactly when the device's id
is terminated in its field. -/
theorem notification_delivered_iff {G : Gcm} (hG : G.Lawful) (dev : Vector UInt8 lenDevid) :
    (∀ (x : Located dev) (m : Notification dev), Delivered G x.table x.it.ipv4 m) ↔
      Terminated dev.toList := by
  constructor
  · intro h
    by_contra ht
    have hnone : ∀ item : FwdItem, item.msg = (bareNotification dev [1]).msg →
        target (registerOnly dev noAddr).table ⟨item, []⟩ = none :=
      fun _ hmsg => target_bareNotification dev noAddr ht hmsg
    exact not_delivered_of_no_target hG hnone _
      (h (registerOnly dev noAddr) (bareNotification dev [1]))
  · intro ht x m
    exact delivered_of_terminated hG ht x m

/-- The id of the device `d1`. -/
def sampleDev : Vector UInt8 lenDevid := ⟨⟨field lenDevid [100, 49]⟩, rfl⟩

/-- The encryption of its bare notification under the key of the server. -/
def sampleGcm : Gcm :=
  Gcm.recorded aesKey ivBytes (bareNotification sampleDev []).msg
    [238, 70, 31, 237, 210, 12, 162, 131, 28, 49, 68, 43, 157, 68, 192, 19, 91, 23, 247, 129,
     150, 121, 27, 176, 4, 243, 110, 23, 194, 104, 82, 242, 220, 152, 80, 58, 105, 164, 251, 124,
     67, 139, 17, 94, 51, 246, 209, 29, 121, 64, 102, 169, 134, 161, 238, 119, 241, 96, 21, 254,
     138, 40, 151, 14, 176, 186, 15, 19, 252, 207, 174, 64, 71, 88, 201, 45, 36, 134, 35, 165,
     147, 49, 75, 114, 194, 222, 103, 213, 17, 248, 94, 89, 199, 21, 124, 211, 197, 13, 158, 28]
    [249, 25, 198, 146, 102, 0, 57, 182, 10, 240, 152, 34, 133, 13, 102, 72]
    (by rw [Notification.msg_length]; rfl) rfl

theorem sampleGcm_lawful : sampleGcm.Lawful := Gcm.recorded_lawful _ _ (by decide)

theorem notification_delivered_sample :
    ∃ (x : Located sampleDev) (m : Notification sampleDev),
      m.msg = header msgNtf gNtfCli [100, 49] [] ∧ Delivered sampleGcm x.table x.it.ipv4 m := by
  have ht : Terminated sampleDev.toList := by decide
  refine ⟨registerOnly sampleDev ⟨2, 7000, 1⟩, bareNotification sampleDev [], ?_, ?_⟩
  · decide
  · exact (notification_delivered_iff sampleGcm_lawful sampleDev).mpr ht _ _

/-- A device whose id fills its field never hears of a notification that names a
notifier. -/
theorem notification_lost_on_full_id :
    ¬ ∀ (dev : Vector UInt8 lenDevid) (x : Located dev) (m : Notification dev),
      Delivered sampleGcm x.table x.it.ipv4 m := by
  intro h
  let dev : Vector UInt8 lenDevid := ⟨⟨List.replicate 40 97⟩, rfl⟩
  have ht : ¬ Terminated dev.toList := by decide
  have hnone : ∀ item : FwdItem, item.msg = (bareNotification dev [1]).msg →
      target (registerOnly dev noAddr).table ⟨item, []⟩ = none :=
    fun _ hmsg => target_bareNotification dev noAddr ht hmsg
  exact not_delivered_of_no_target sampleGcm_lawful hnone _ (h dev _ _)

end MemoryLeak.Notify
