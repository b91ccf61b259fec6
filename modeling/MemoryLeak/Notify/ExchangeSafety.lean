import MemoryLeak.Notify.Exchange
import MemoryLeak.Notify.Hops

/-!
# What the parties can rely on

In every run of honest steps no party leaves a buffer, a peer that reports the key has the key of
the server, a client is only handed notifications that a notifier addressed to its identifier, and
a notifier only the answers to its own. The invariant says of every message that is queued or in
flight where it comes from.
-/
namespace MemoryLeak.Notify
open MemoryLeak.CBytes MemoryLeak.Runs

/-- The answer to a notification, as `send_msg_fb` encrypts it. -/
def feedbackOf (m : Bytes) : Bytes :=
  (setLen (setIfroute m gCliNtf) (zeros lenU16int)).take sizeofMsgCommon

/-- The text of the identifier whose owner gets the message. -/
def targetKey (m : Bytes) : Bytes :=
  if ifroute m = gCliNtf then idKey (ntfId m) else idKey (devId m)

theorem destId_targetKey {m iid : Bytes} (h : destId m = some iid) : idKey iid = targetKey m := by
  rw [destId] at h
  rw [targetKey]
  by_cases hfb : ifroute m = gCliNtf
  · rw [hfb] at h
    rw [if_pos hfb, ← Option.some.inj h]
  · rw [if_neg hfb]
    split_ifs at h <;> rw [← Option.some.inj h]

theorem targetKey_append {m : Bytes} (h : sizeofMsgCommon ≤ m.length) (behind : Bytes) :
    targetKey (m ++ behind) = targetKey m := by
  have hroute : ifroute (m ++ behind) = ifroute m := byteAt_append_header h behind (by decide)
  simp only [targetKey, hroute, idKey_devId, idKey_ntfId, ids_append h]

theorem Forwarded.feedback {route : UInt8} {m : Bytes} (h : Forwarded route m) :
    Forwarded gCliNtf (feedbackOf m) ∧ ids (feedbackOf m) = ids m := by
  have hlen := h.header_le
  have h1 : (setIfroute m gCliNtf).length = m.length := memcpy_length (le_trans (by simp) hlen)
  have h2 : (setLen (setIfroute m gCliNtf) (zeros lenU16int)).length = m.length := by
    rw [setLen, memcpy_length (by rw [h1]; exact le_trans (by simp) hlen), h1]
  have h3 : (feedbackOf m).length = sizeofMsgCommon := by
    rw [feedbackOf, List.length_take, h2, Nat.min_eq_left hlen]
  have hbyte : ∀ i < 2, byteAt (feedbackOf m) i = byteAt (setIfroute m gCliNtf) i := by
    intro i hi
    rw [feedbackOf, byteAt_take _ (lt_trans hi (by decide)), setLen,
      byteAt_memcpy_of_lt (lt_trans hi (by decide)) (by rw [h1]; exact le_trans (by decide) hlen)]
  refine ⟨⟨h3.ge, by rw [h3]; decide, ?_, ?_⟩, ?_⟩
  · rw [msgType, hbyte 0 (by decide), setIfroute,
      byteAt_memcpy_of_lt (by decide) (le_trans (by decide) hlen)]
    exact h.type_eq
  · rw [ifroute, hbyte 1 (by decide), setIfroute,
      byteAt_memcpy_of_mem (le_trans (by decide) hlen) le_rfl (by decide)]
    rfl
  · rw [feedbackOf, ids_take (by decide), ids_rerouted hlen]

/-- `send_msg_fb` reads the header of the message alone. -/
theorem feedback_append {m : Bytes} (h : sizeofMsgCommon ≤ m.length) (behind : Bytes) :
    (setLen (setIfroute (m ++ behind) gCliNtf) (zeros lenU16int)).take sizeofMsgCommon =
      feedbackOf m := by
  have h1 : (setIfroute m gCliNtf).length = m.length := memcpy_length (le_trans (by simp) h)
  have h2 : setIfroute (m ++ behind) gCliNtf = setIfroute m gCliNtf ++ behind :=
    memcpy_append_left (le_trans (by simp) h)
  have h3 : setLen (setIfroute m gCliNtf ++ behind) (zeros lenU16int) =
      setLen (setIfroute m gCliNtf) (zeros lenU16int) ++ behind :=
    memcpy_append_left (by rw [h1]; exact le_trans (by simp) h)
  have h4 : (setLen (setIfroute m gCliNtf) (zeros lenU16int)).length = m.length := by
    rw [setLen, memcpy_length (by rw [h1]; exact le_trans (by simp) h), h1]
  rw [h2, h3, List.take_append_of_le_length (by rw [h4]; exact h), feedbackOf]

/-- A field that starts with a NUL holds the empty text. -/
theorem terminated_ntfId {m : Bytes} (h : byteAt m offNtfId = 0) : Terminated (ntfId m) := by
  have hzero : ¬ 0 < strlen (ntfId m) := by
    intro hpos
    refine byteAt_ne_zero_of_lt_strlen hpos ?_
    rw [ntfId, byteAt_drop]
    exact h
  have hlt : strlen (ntfId m) < 40 := by omega
  exact hlt

section Traced

variable {ι : Type} (σ : Site ι)

/-! ### Where messages come from -/

/-- The notification of a notifier. -/
structure IsNotification (i : ι) (m : Bytes) : Prop where
  party : σ.party i = .notifier
  message : ∃ dev text t, m = σ.notification i dev text t

/-- A request for the key. -/
structure IsRequest (i : ι) (m : Bytes) : Prop where
  length : m.length = sizeofMsgCommon
  type_eq : msgType m = msgGetAes
  route_eq : ifroute m = (σ.party i).request
  dev_eq : idKey (devId m) = idKey (σ.iid i)
  ntf : Terminated (ntfId m)

/-- A tracking message. -/
structure IsTracking (i : ι) (m : Bytes) : Prop where
  length : m.length = sizeofMsgCommon
  type_eq : msgType m = msgTra
  dev_eq : idKey (devId m) = idKey (σ.iid i)

/-- The reply to a request. -/
structure IsReply (i : ι) (x : KeyRequest) : Prop where
  n_eq : x.n = sizeofMsgCommon
  dev_eq : idKey (devId x.p) = idKey (σ.iid i)

/-- A notification that was sent, or the answer to one that was received. -/
def Spoken (s : Exchange ι) (m : Bytes) : Prop :=
  (∃ i, (i, m) ∈ s.sent) ∨ ∃ i p, (i, p) ∈ s.got ∧ m = feedbackOf p

/-- The message under the public key of the server. -/
def UnderSrvPub (m d : Bytes) : Prop :=
  ∃ c, rsaEnc σ.srvPub m = some c ∧ c.length < maxMsg ∧ d = c ++ [encryptSrvPub]

/-- An address that the table can hold for the identifier. -/
def At (k : Bytes) (a : SockAddrIn) : Prop :=
  a = noAddr ∨ ∃ j, a = σ.addr j ∧ idKey (σ.iid j) = k

/-- What `main` can receive. -/
def ToMain (s : Exchange ι) (d : Bytes) : Prop :=
  d = [encryptSrvPub] ∨ (∃ i m, IsRequest σ i m ∧ UnderSrvPub σ m d) ∨
    ∃ m, Spoken s m ∧ Sealed σ.gcm m d

/-- What the sending thread can receive. -/
def ToThread (d : Bytes) (a : SockAddrIn) : Prop :=
  ∃ i, a = σ.addr i ∧ (d = [encryptSrvPub] ∨
    ∃ m, IsTracking σ i m ∧ (UnderSrvPub σ m d ∨ Sealed σ.gcm m d))

/-- What the queue can hold. -/
def Held (s : Exchange ι) (m : Bytes) : Prop :=
  Spoken s m ∨ ∃ i x, IsReply σ i x ∧ m = x.q.item.msg

/-- What can be under way to an address. -/
def ToPeer (s : Exchange ι) (d : Bytes) (a : SockAddrIn) : Prop :=
  ∃ k, At σ k a ∧ ((∃ m, Spoken s m ∧ targetKey m = k ∧ Sealed σ.gcm m d) ∨
    ∃ i x c, IsReply σ i x ∧ idKey (σ.iid i) = k ∧ rsaEnc (σ.cliPub k) x.q.item.msg = some c ∧
      d = c ++ [encryptCliPub])

/-- The invariant. -/
structure Traced (s : Exchange ι) : Prop where
  table : TableInv s.table
  placed : ∀ b, ∀ it ∈ (s.table b).group, At σ (itemKey it) it.ipv4
  bufout : s.bufout.length = maxMsg + 1
  threadBufout : s.threadBufout.length = maxMsg + 1
  peerBufout : ∀ i, (s.peer i).bufout.length = maxMsg + 1
  key : ∀ i, (s.peer i).gotAes = true → HasKey (s.peer i)
  sent : ∀ i m, (i, m) ∈ s.sent → IsNotification σ i m
  got : ∀ i m, (i, m) ∈ s.got → σ.party i = .client ∧ (∃ j, (j, m) ∈ s.sent) ∧
    idKey (devId m) = idKey (σ.iid i)
  confirmed : ∀ j m, (j, m) ∈ s.confirmed → σ.party j = .notifier ∧
    ∃ i p, (i, p) ∈ s.got ∧ m = feedbackOf p ∧ idKey (ntfId p) = idKey (σ.iid j)
  queue : ∀ q ∈ s.queue, Held σ s q.msg
  toMain : ∀ d ∈ s.toMain, ToMain σ s d
  toThread : ∀ x ∈ s.toThread, ToThread σ x.1 x.2
  toPeer : ∀ x ∈ s.toPeer, ToPeer σ s x.1 x.2

variable {σ}

/-- The records only grow. -/
theorem Spoken.mono {s s' : Exchange ι} (hsent : s.sent ⊆ s'.sent) (hgot : s.got ⊆ s'.got)
    {m : Bytes} (h : Spoken s m) : Spoken s' m := by
  rcases h with ⟨i, hi⟩ | ⟨i, p, hp, hm⟩
  · exact Or.inl ⟨i, hsent hi⟩
  · exact Or.inr ⟨i, p, hgot hp, hm⟩

theorem ToMain.mono {s s' : Exchange ι} (hsent : s.sent ⊆ s'.sent) (hgot : s.got ⊆ s'.got)
    {d : Bytes} (h : ToMain σ s d) : ToMain σ s' d := by
  rcases h with h | h | ⟨m, hm, hd⟩
  · exact Or.inl h
  · exact Or.inr (Or.inl h)
  · exact Or.inr (Or.inr ⟨m, hm.mono hsent hgot, hd⟩)

theorem Held.mono {s s' : Exchange ι} (hsent : s.sent ⊆ s'.sent) (hgot : s.got ⊆ s'.got)
    {m : Bytes} (h : Held σ s m) : Held σ s' m := h.imp_left (·.mono hsent hgot)

theorem ToPeer.mono {s s' : Exchange ι} (hsent : s.sent ⊆ s'.sent) (hgot : s.got ⊆ s'.got)
    {d : Bytes} {a : SockAddrIn} (h : ToPeer σ s d a) : ToPeer σ s' d a := by
  obtain ⟨k, hk, ⟨m, hm, hrest⟩ | hreply⟩ := h
  · exact ⟨k, hk, Or.inl ⟨m, hm.mono hsent hgot, hrest⟩⟩
  · exact ⟨k, hk, Or.inr hreply⟩

/-! ### The messages of the parties -/

theorem notification_forwarded (i : ι) (dev text : Bytes) (t : Timespec) :
    Forwarded gNtfCli (σ.notification i dev text t) := by
  let m := shippedNotification dev (σ.iid i) text t
  have hmsg : σ.notification i dev text t = m.msg := rfl
  have hlen : m.msg.length = maxMsg - aesIvBytes := m.msg_length
  refine ⟨?_, ?_, ?_, ?_⟩
  · rw [hmsg, hlen]
    decide
  · rw [hmsg, hlen]
  · rw [hmsg, ← List.append_nil m.msg]
    exact m.msg_type []
  · rw [hmsg, ← List.append_nil m.msg]
    exact m.msg_route []

theorem notification_ids (i : ι) (dev text : Bytes) (t : Timespec) :
    idKey (devId (σ.notification i dev text t)) = idKey dev ∧
      idKey (ntfId (σ.notification i dev text t)) = idKey (σ.iid i) := by
  have hids : ids (σ.notification i dev text t) = ids (notifierBuffer dev (σ.iid i) text t) :=
    ids_take (by decide) _
  obtain ⟨hdev, hntf⟩ := notifierBuffer_ids dev (σ.iid i) text t
  exact ⟨by rw [idKey_devId, hids, hdev], by rw [idKey_ntfId, hids, hntf]⟩

/-- Both kinds of messages that the server forwards. -/
theorem Traced.spoken {s : Exchange ι} (h : Traced σ s) {m : Bytes} (hm : Spoken s m) :
    (Forwarded gNtfCli m ∧ ∃ i, (i, m) ∈ s.sent) ∨
      (Forwarded gCliNtf m ∧ ∃ i p, (i, p) ∈ s.got ∧ m = feedbackOf p ∧ ids m = ids p) := by
  have hsent : ∀ i m, (i, m) ∈ s.sent → Forwarded gNtfCli m := by
    intro i m hi
    obtain ⟨dev, text, t, rfl⟩ := (h.sent i m hi).message
    exact notification_forwarded i dev text t
  rcases hm with ⟨i, hi⟩ | ⟨i, p, hp, rfl⟩
  · exact Or.inl ⟨hsent i m hi, i, hi⟩
  · obtain ⟨_, ⟨j, hj⟩, _⟩ := h.got i p hp
    obtain ⟨hfwd, hids⟩ := (hsent j p hj).feedback
    exact Or.inr ⟨hfwd, i, p, hp, rfl, hids⟩

theorem Traced.forwarded {s : Exchange ι} (h : Traced σ s) {m : Bytes} (hm : Spoken s m) :
    ∃ route, Forwarded route m ∧ (route = gNtfCli ∨ route = gCliNtf) := by
  rcases h.spoken hm with ⟨hfwd, _⟩ | ⟨hfwd, _⟩
  · exact ⟨gNtfCli, hfwd, Or.inl rfl⟩
  · exact ⟨gCliNtf, hfwd, Or.inr rfl⟩

theorem aesDatagram_sealed (hG : σ.gcm.Lawful) {st : PeerState} (hkey : HasKey st) {m : Bytes}
    (h : m.length + 1 + aesIvBytes ≤ maxMsg + 1) :
    ∃ d, σ.aesDatagram st m = some d ∧ Sealed σ.gcm m d := by
  obtain ⟨d, hd, hsealed⟩ := msgAesEnc_sealed hG h
  rw [← hkey.key, ← hkey.iv] at hd
  exact ⟨d, hd, hsealed⟩

/-! ### The table -/

/-- A tracking puts its address at the identifier of its message. -/
theorem hlTrackMsg_placed {T : Table} (hinv : TableInv T) {P : Bytes → SockAddrIn → Prop}
    (hT : ∀ b, ∀ it ∈ (T b).group, P (itemKey it) it.ipv4) {msg : Bytes} {addr : SockAddrIn}
    (hP : P (idKey (devId msg)) addr) :
    ∀ b, ∀ it ∈ ((hlTrackMsg T msg addr).2 b).group, P (itemKey it) it.ipv4 := by
  rcases hlTrackMsg_cases hinv msg addr with ⟨_, hr⟩ | ⟨_, _, hr⟩
  · rw [hr]
    exact hT
  · rw [hr]
    intro b it hit
    by_cases hb : b = hashId (devId msg)
    · subst hb
      rw [Function.update_self] at hit
      obtain ⟨it', hmem, rfl⟩ := List.mem_map.mp hit
      by_cases hk : itemKey it' = idKey (devId msg)
      · rw [if_pos hk, itemKey_setIpv4, hk]
        exact hP
      · rw [if_neg hk]
        exact hT _ it' hmem
    · rw [Function.update_of_ne hb] at hit
      exact hT b it hit

/-- After registrations alone no item has an address. -/
theorem regs_untracked {regs : List TableOp} (h : ∀ op ∈ regs, op.isReg ∧ op.Sized) :
    TableInv (exec tableStep emptyTable regs).1 ∧
      ∀ b, ∀ it ∈ ((exec tableStep emptyTable regs).1 b).group, it.ipv4 = noAddr := by
  refine exec_invariant (V := fun op => op.isReg ∧ op.Sized)
    (P := fun T => TableInv T ∧ ∀ b, ∀ it ∈ (T b).group, it.ipv4 = noAddr) ?_ ?_ h
  · rintro T op ⟨hinv, hT⟩ ⟨hreg, hsized⟩
    refine ⟨tableStep_inv hinv hsized, ?_⟩
    cases op with
    | reg msg n t rsa =>
      rcases regToTable_cases hinv hsized.1 hsized.2 t rsa with ⟨_, _, hr⟩ |
        ⟨_, _, new, _, hnew, hr⟩
      · rwa [show (tableStep T (.reg msg n t rsa)).1 = T from hr]
      · rw [show (tableStep T (.reg msg n t rsa)).1 = _ from hr]
        intro b it hit
        by_cases hb : b = hashId (devId msg)
        · subst hb
          rw [Function.update_self] at hit
          rcases List.mem_cons.mp hit with rfl | hit
          · exact hnew
          · exact hT _ it hit
        · rw [Function.update_of_ne hb] at hit
          exact hT b it hit
    | track msg addr => cases hreg
  · exact ⟨tableInv_empty, fun b it hit => absurd hit List.not_mem_nil⟩

theorem traced_start {regs : List TableOp} (h : ∀ op ∈ regs, op.isReg ∧ op.Sized) :
    Traced σ (exchangeStart ι regs) where
  table := (regs_untracked h).1
  placed := fun b it hit => Or.inl ((regs_untracked h).2 b it hit)
  bufout := zeros_length _
  threadBufout := zeros_length _
  peerBufout := fun _ => zeros_length _
  key := fun _ hgot => absurd hgot Bool.false_ne_true
  sent := fun _ _ hm => absurd hm List.not_mem_nil
  got := fun _ _ hm => absurd hm List.not_mem_nil
  confirmed := fun _ _ hm => absurd hm List.not_mem_nil
  queue := fun _ hm => absurd hm List.not_mem_nil
  toMain := fun _ hm => absurd hm List.not_mem_nil
  toThread := fun _ hm => absurd hm List.not_mem_nil
  toPeer := fun _ hm => absurd hm List.not_mem_nil

end Traced

/-! ### What the peers send -/

section Sending

variable {ι : Type} {σ : Site ι} {s : Exchange ι}

theorem traced_track [DecidableEq ι] (hσ : σ.Lawful) (h : Traced σ s) (i : ι) (t : Timespec) :
    ∃ s', exchangeStep σ s (.track i t) = some s' ∧ Traced σ s' := by
  obtain ⟨hall, htype, hdev⟩ := trackMsg_spec (hσ.readable i) t
  have hlen : ((trackMsg (σ.iid i) (some t)).take sizeofMsgCommon).length = sizeofMsgCommon := by
    rw [List.length_take, hall]
    decide
  have htracking : IsTracking σ i ((trackMsg (σ.iid i) (some t)).take sizeofMsgCommon) :=
    ⟨hlen, htype, by rw [idKey_devId, hdev]⟩
  have hsent : ∀ d, σ.trackDatagram i (s.peer i) t = some d → ToThread σ d (σ.addr i) := by
    intro d hd
    refine ⟨i, rfl, ?_⟩
    rw [Site.trackDatagram] at hd
    by_cases hgot : (s.peer i).gotAes = true
    · rw [if_pos hgot] at hd
      obtain ⟨d', hd', hsealed⟩ := aesDatagram_sealed hσ.gcm (h.key i hgot)
        (show ((trackMsg (σ.iid i) (some t)).take sizeofMsgCommon).length + 1 + aesIvBytes ≤ _ by
          rw [hlen]; decide)
      cases hd'.symm.trans hd
      exact Or.inr ⟨_, htracking, Or.inr hsealed⟩
    · rw [if_neg hgot] at hd
      have hne : (trackMsg (σ.iid i) (some t)).take sizeofMsgCommon ≠ [] := by
        rw [← List.length_pos_iff, hlen]
        decide
      rcases rsaDatagram_cases hne hall hd with htrailer | hcipher
      · exact Or.inl htrailer
      · exact Or.inr ⟨_, htracking, Or.inl hcipher⟩
  refine ⟨_, rfl, { h with toThread := ?_ }⟩
  intro x hx
  rcases List.mem_append.mp hx with hx | hx
  · exact h.toThread x hx
  · obtain ⟨d, hd, rfl⟩ := List.mem_map.mp hx
    exact hsent d (Option.mem_toList.mp hd)

/-- The message of `cmd_2_srv` for a key. -/
theorem isRequest_cmdMsg (hσ : σ.Lawful) (i : ι) (t : Timespec) :
    IsRequest σ i ((cmdMsg msgGetAes (σ.party i).request none (σ.iid i) t).take sizeofMsgCommon) ∧
      (cmdMsg msgGetAes (σ.party i).request none (σ.iid i) t).length = maxMsg + 1 := by
  obtain ⟨hall, htype, hroute, hdev, hntf⟩ := cmdMsg_spec (hσ.readable i) (hσ.terminated i)
    msgGetAes (σ.party i).request t
  refine ⟨⟨?_, htype, hroute, ?_, terminated_ntfId hntf⟩, hall⟩
  · rw [List.length_take, hall]
    decide
  · rw [idKey_devId, hdev]

theorem traced_request [DecidableEq ι] (hσ : σ.Lawful) (h : Traced σ s) (i : ι) (t : Timespec) :
    ∃ s', exchangeStep σ s (.request i t) = some s' ∧ Traced σ s' := by
  obtain ⟨hrequest, hall⟩ := isRequest_cmdMsg hσ i t
  have hne : (cmdMsg msgGetAes (σ.party i).request none (σ.iid i) t).take sizeofMsgCommon ≠ [] := by
    rw [← List.length_pos_iff, hrequest.length]
    decide
  refine ⟨_, rfl, { h with toMain := ?_ }⟩
  intro d hd
  rcases List.mem_append.mp hd with hd | hd
  · exact h.toMain d hd
  · rcases rsaDatagram_cases hne hall (Option.mem_toList.mp hd) with htrailer | hcipher
    · exact Or.inl htrailer
    · exact Or.inr (Or.inl ⟨i, _, hrequest, hcipher⟩)

/-- A notifier with the key sends its notification under it. -/
theorem exchangeStep_notify [DecidableEq ι] (hσ : σ.Lawful) (h : Traced σ s) {i : ι}
    (hgot : (s.peer i).gotAes = true) (dev text : Bytes) (t : Timespec) :
    ∃ d, Sealed σ.gcm (σ.notification i dev text t) d ∧
      exchangeStep σ s (.notify i dev text t) = some { s with
        toMain := s.toMain ++ [d]
        sent := s.sent ++ [(i, σ.notification i dev text t)] } := by
  let m := shippedNotification dev (σ.iid i) text t
  obtain ⟨⟨cipher, tag⟩, henc⟩ := Option.isSome_iff_exists.mp (hσ.gcm.total aesKey ivBytes m.msg)
  have hsend : notifierSend σ.gcm (s.peer i) (notifierBuffer dev (σ.iid i) text t)
      (maxMsg - aesIvBytes) = some (cipher ++ tag ++ [encryptAes]) :=
    notifierSend_eq m henc (h.key i hgot) hgot
  refine ⟨_, ⟨cipher, tag, henc, rfl⟩, ?_⟩
  simp only [exchangeStep, hsend]

theorem traced_notify [DecidableEq ι] (hσ : σ.Lawful) (h : Traced σ s) {i : ι}
    {dev text : Bytes} {t : Timespec} (hhonest : Honest σ s (.notify i dev text t)) :
    ∃ s', exchangeStep σ s (.notify i dev text t) = some s' ∧ Traced σ s' := by
  obtain ⟨hparty, hgot⟩ := hhonest
  obtain ⟨d, hsealed, hstep⟩ := exchangeStep_notify hσ h hgot dev text t
  let s' : Exchange ι := { s with
    toMain := s.toMain ++ [d]
    sent := s.sent ++ [(i, σ.notification i dev text t)] }
  have hsent : s.sent ⊆ s'.sent := List.subset_append_left _ _
  have hreceived : s.got ⊆ s'.got := List.Subset.refl _
  refine ⟨s', hstep, { h with
    sent := ?_
    got := ?_
    queue := fun q hq => (h.queue q hq).mono hsent hreceived
    toMain := ?_
    toPeer := fun x hx => (h.toPeer x hx).mono hsent hreceived }⟩
  · intro j p hp
    rcases List.mem_append.mp hp with hp | hp
    · exact h.sent j p hp
    · cases List.mem_singleton.mp hp
      exact ⟨hparty, dev, text, t, rfl⟩
  · intro j p hp
    obtain ⟨hclient, ⟨k, hk⟩, hid⟩ := h.got j p hp
    exact ⟨hclient, ⟨k, hsent hk⟩, hid⟩
  · intro d hd
    rcases List.mem_append.mp hd with hd | hd
    · exact (h.toMain d hd).mono hsent hreceived
    · rw [List.mem_singleton.mp hd]
      have hnew : (i, σ.notification i dev text t) ∈ s'.sent :=
        List.mem_append_right _ (List.mem_singleton_self _)
      exact Or.inr (Or.inr ⟨_, Or.inl ⟨i, hnew⟩, hsealed⟩)

end Sending

/-! ### What the server does -/

section Server

variable {ι : Type} {σ : Site ι} {s : Exchange ι}

theorem traced_main [DecidableEq ι] (hσ : σ.Lawful) (h : Traced σ s) {d : Bytes}
    (hd : d ∈ s.toMain) : ∃ s', exchangeStep σ s (.main d) = some s' ∧ Traced σ s' := by
  have hturn : ∃ b q, mainTurn ⟨some σ.srvPrv, σ.gcm⟩ s.bufout d = some (b, q) ∧
      b.length = maxMsg + 1 ∧ ∀ x ∈ q, Held σ s x.item.msg := by
    by_cases hshort : d.length < sizeofMsgCommon
    · exact ⟨s.bufout, none, mainTurn_short hshort _ _, h.bufout, fun x hx => by cases hx⟩
    · rcases h.toMain d hd with rfl | ⟨i, m, hm, c, henc, hc, rfl⟩ | ⟨m, hm, hsealed⟩
      · exact absurd (by decide) hshort
      · have hle : (c ++ [encryptSrvPub]).length ≤ maxMsg + 1 := by
          rw [List.length_append, List.length_singleton]
          omega
        obtain ⟨x, hx, _, hn, hp⟩ := mainTurn_request (G := σ.gcm) (hσ.srv_undo m c henc) hm.length
          hm.type_eq hm.route_eq (Nat.le_of_not_lt hshort) hle h.bufout
        refine ⟨s.bufout, some x.q, hx, h.bufout, ?_⟩
        intro q hq
        cases hq
        have hkey : idKey (devId x.p) = idKey (devId m) := by
          rw [hp, idKey_devId, idKey_devId, ids_append hm.length.ge]
        exact Or.inr ⟨i, x, ⟨hn, hkey.trans hm.dev_eq⟩, rfl⟩
      · obtain ⟨route, hfwd, hroute⟩ := h.forwarded hm
        obtain ⟨b, q, hb, hmsg, hlen⟩ := mainTurn_sealed hσ.gcm hfwd hroute hsealed
          (some σ.srvPrv) h.bufout
        refine ⟨b, some q, hb, hlen, ?_⟩
        intro x hx
        cases hx
        rw [hmsg]
        exact Or.inl hm
  obtain ⟨b, q, hb, hlen, hheld⟩ := hturn
  have hstep : exchangeStep σ s (.main d) =
      some { s with bufout := b, queue := q.toList.map Queued.item ++ s.queue } := by
    simp only [exchangeStep, hb, Option.map_some]
  refine ⟨_, hstep, { h with
    bufout := hlen
    queue := ?_ }⟩
  intro x hx
  rcases List.mem_append.mp hx with hx | hx
  · obtain ⟨y, hy, rfl⟩ := List.mem_map.mp hx
    exact hheld y (Option.mem_toList.mp hy)
  · exact h.queue x hx

/-- The thread tracks the identifier of a tracking message. -/
theorem sendingRecv_tracks (hσ : σ.Lawful) (h : Traced σ s) {i : ι} {m d : Bytes}
    (hm : IsTracking σ i m) (hd : UnderSrvPub σ m d ∨ Sealed σ.gcm m d)
    (hlong : sizeofMsgCommon ≤ d.length) (cliaddr : SockAddrIn) (around : ℤ → UInt8)
    (stack : Bytes) :
    ∃ r p, sendingRecv ⟨⟨some σ.srvPrv, σ.gcm⟩, fun _ => none⟩ s.table around s.threadBufout stack
        cliaddr d = some r ∧ r.bufout.length = maxMsg + 1 ∧ idKey (devId p) = idKey (σ.iid i) ∧
      r.table = (hlTrackMsg s.table p cliaddr).2 := by
  -- the message stands at the start of the buffer it was decoded to
  have hdecode : ∃ inBufout behind, d.length ≤ maxMsg ∧ decode ⟨some σ.srvPrv, σ.gcm⟩ (recvBuf d)
      s.threadBufout d.length = .message inBufout (m ++ behind) m.length ∧
      (m ++ behind).length = maxMsg + 1 := by
    rcases hd with ⟨c, henc, hc, rfl⟩ | ⟨cipher, tag, henc, rfl⟩
    · have hle : (c ++ [encryptSrvPub]).length ≤ maxMsg := by
        rw [List.length_append, List.length_singleton]
        omega
      refine ⟨false, zeros (maxMsg + 1 - m.length), hle, ?_, ?_⟩
      · exact decode_rsa rfl (hσ.srv_undo m c henc) (by rw [hm.length]; decide) (by omega) _
      · rw [List.length_append, zeros_length, hm.length]
        decide
    · have hfits : m.length + 1 + aesIvBytes ≤ maxMsg + 1 := by
        rw [hm.length]
        decide
      refine ⟨true, s.threadBufout.drop m.length, ?_, ?_, ?_⟩
      · rw [encrypted_length henc, hm.length]
        decide
      · rw [← memcpy_start]
        exact decode_aes (w := ⟨some σ.srvPrv, σ.gcm⟩) henc (hσ.gcm.undo _ _ _ _ _ henc) hfits
          s.threadBufout
      · rw [List.length_append, List.length_drop, h.threadBufout, hm.length]
        decide
  obtain ⟨inBufout, behind, hle, hdec, hlen⟩ := hdecode
  obtain ⟨r, hr, hbuf, htable⟩ := sendingRecv_decoded
    (w := ⟨⟨some σ.srvPrv, σ.gcm⟩, fun _ => none⟩) hlong hle hdec s.table around stack cliaddr
  have htype : msgType (m ++ behind) = msgTra := by
    rw [msgType, byteAt_append_header hm.length.ge _ (by decide)]
    exact hm.type_eq
  refine ⟨r, m ++ (behind ++ stack), hr, ?_, ?_, ?_⟩
  · rw [hbuf]
    by_cases hin : inBufout = true
    · rw [if_pos hin, hlen]
    · rw [if_neg hin, h.threadBufout]
  · rw [idKey_devId, ids_append hm.length.ge, ← idKey_devId, hm.dev_eq]
  · rw [htable, if_pos htype, List.append_assoc]

/-- It tracks the party that sent the datagram, or nothing. -/
theorem sendingRecv_tracking (hσ : σ.Lawful) (h : Traced σ s) {d : Bytes} {cliaddr : SockAddrIn}
    (hd : ToThread σ d cliaddr) (around : ℤ → UInt8) (stack : Bytes) :
    ∃ r, sendingRecv ⟨⟨some σ.srvPrv, σ.gcm⟩, fun _ => none⟩ s.table around s.threadBufout stack
        cliaddr d = some r ∧ r.bufout.length = maxMsg + 1 ∧
      (r.table = s.table ∨ ∃ p, At σ (idKey (devId p)) cliaddr ∧
        r.table = (hlTrackMsg s.table p cliaddr).2) := by
  by_cases hshort : d.length < sizeofMsgCommon
  · obtain ⟨r, hr, hbuf, htable⟩ := sendingRecv_short hshort
      ⟨⟨some σ.srvPrv, σ.gcm⟩, fun _ => none⟩ s.table around s.threadBufout stack cliaddr
    exact ⟨r, hr, by rw [hbuf, h.threadBufout], Or.inl htable⟩
  obtain ⟨i, haddr, htrailer | ⟨m, hm, hdatagram⟩⟩ := hd
  · rw [htrailer] at hshort
    exact absurd (by decide) hshort
  · obtain ⟨r, p, hr, hbuf, hkey, htable⟩ := sendingRecv_tracks hσ h hm hdatagram
      (Nat.le_of_not_lt hshort) cliaddr around stack
    exact ⟨r, hr, hbuf, Or.inr ⟨p, Or.inr ⟨i, haddr, hkey.symm⟩, htable⟩⟩

theorem traced_thread [DecidableEq ι] (hσ : σ.Lawful) (h : Traced σ s) {d : Bytes}
    {cliaddr : SockAddrIn} (hd : (d, cliaddr) ∈ s.toThread) (around : ℤ → UInt8) (stack : Bytes) :
    ∃ s', exchangeStep σ s (.thread d cliaddr around stack) = some s' ∧ Traced σ s' := by
  obtain ⟨r, hr, hbuf, htable⟩ := sendingRecv_tracking hσ h (h.toThread _ hd) around stack
  have hstep : exchangeStep σ s (.thread d cliaddr around stack) =
      some { s with threadBufout := r.bufout, table := r.table } := by
    simp only [exchangeStep, hr, Option.map_some]
  refine ⟨_, hstep, { h with
    threadBufout := hbuf
    table := ?_
    placed := ?_ }⟩
  · rcases htable with heq | ⟨p, _, heq⟩
    · exact heq ▸ h.table
    · rw [heq]
      have htracked : TableInv (tableStep s.table (.track p cliaddr)).1 :=
        tableStep_inv h.table trivial
      exact htracked
  · rcases htable with heq | ⟨p, hat, heq⟩
    · exact heq ▸ h.placed
    · rw [heq]
      exact hlTrackMsg_placed h.table h.placed hat

theorem mem_takenChain {queue : List FwdItem} {behind : ℕ → Bytes} {x : Taken × ℕ}
    (hx : x ∈ (takenChain queue behind).zipIdx) :
    x.1.item ∈ queue ∧ (takenChain queue behind)[x.2]? = some x.1 := by
  have hk := List.mem_zipIdx_iff_getElem?.mp hx
  obtain ⟨y, hy, heq⟩ := List.mem_map.mp (List.mem_of_getElem? hk)
  refine ⟨?_, hk⟩
  rw [← heq]
  exact (List.mem_zipIdx hy).2.2 ▸ List.getElem_mem _

/-- The address that the table has for a message is one of its target. -/
theorem Traced.at_target (h : Traced σ s) {q : Taken} {a : SockAddrIn}
    (ha : target s.table q = some a) : At σ (targetKey q.mem) a := by
  obtain ⟨iid, it, hdest, ⟨b, hmem, hcmp⟩, rfl⟩ := target_registered ha
  rw [← destId_targetKey hdest, ← (strncmp_item_iff iid it).mp hcmp]
  exact h.placed b it hmem

theorem getCliPub_calls {chain : List Taken} {q : Taken} {k : ℕ} (hq : chain[k]? = some q)
    (sendto : ℕ → ℤ) :
    (σ.calls chain sendto k).getCliPub = some (σ.cliPub (idKey (devId q.mem))) := by
  simp only [Site.calls, hq, Option.map_some]

/-- A queued reply is for the peer that made the request. -/
theorem IsReply.taken {i : ι} {x : KeyRequest} (hx : IsReply σ i x) {q : Taken}
    (hmsg : q.item.msg = x.q.item.msg) : q.item.msg.length = 148 ∧ msgType q.mem = msgGetAes ∧
      idKey (devId q.mem) = idKey (σ.iid i) ∧ targetKey q.mem = idKey (σ.iid i) := by
  have hmem : q.mem = x.q.item.msg ++ q.behind := congrArg (· ++ q.behind) hmsg
  obtain ⟨htype, hroute⟩ := x.header_eq q.behind
  have hkey := (x.idKey_eq q.behind).trans hx.dev_eq
  have hne : ifroute q.mem ≠ gCliNtf := by
    rw [hmem, hroute]
    cases x.party <;> decide
  rw [targetKey, if_neg hne, hmem, htype, hmsg]
  exact ⟨x.msg_length hx.n_eq, rfl, hkey, hkey⟩

/-- The drain encrypts it for that peer. -/
theorem IsReply.built (hσ : σ.Lawful) {i : ι} {x : KeyRequest} (hx : IsReply σ i x) {q : Taken}
    (hmsg : q.item.msg = x.q.item.msg) {chain : List Taken} {k : ℕ} (hq : chain[k]? = some q)
    (sendto : ℕ → ℤ) : ∃ c, rsaEnc (σ.cliPub (idKey (σ.iid i))) x.q.item.msg = some c ∧
      built (σ.calls chain sendto k) q = some (c ++ [encryptCliPub]) := by
  obtain ⟨hlen, htype, hkey, _⟩ := hx.taken hmsg
  obtain ⟨c, hc⟩ := Option.isSome_iff_exists.mp (hσ.cli_encrypts (idKey (σ.iid i)) q.item.msg
    (by rw [hlen]; decide) (by rw [hlen]; decide))
  refine ⟨c, hmsg ▸ hc, ?_⟩
  rw [Notify.built, if_pos htype, getCliPub_calls hq, hkey, Option.bind_some, hc, Option.map_some]

/-- What the drain makes of a queued message. -/
theorem Traced.drained (hσ : σ.Lawful) (h : Traced σ s) {chain : List Taken} (sendto : ℕ → ℤ)
    {x : Taken × ℕ} (hitem : x.1.item ∈ s.queue) (hx : chain[x.2]? = some x.1) :
    ¬ Overflows (σ.calls chain sendto) x ∧ ∃ b, built (σ.calls chain sendto x.2) x.1 = some b ∧
      ∀ a, target s.table x.1 = some a → ToPeer σ s b a := by
  rcases h.queue _ hitem with hm | ⟨i, r, hr, hmsg⟩
  · obtain ⟨route, hfwd, _⟩ := h.forwarded hm
    obtain ⟨htype, b, hsealed, hb⟩ := built_forwarded hσ.gcm (q := x.1) hfwd
    have hne : msgType x.1.mem ≠ msgGetAes := by
      rw [htype]
      decide
    refine ⟨?_, b, hb _ rfl, ?_⟩
    · rw [Overflows, if_neg hne]
      exact fun hover => hover.1 htype
    · intro a ha
      have hat := h.at_target ha
      rw [Taken.mem, targetKey_append hfwd.header_le] at hat
      exact ⟨_, hat, Or.inl ⟨x.1.item.msg, hm, rfl, hsealed⟩⟩
  · obtain ⟨hlen, htype, hkey, htarget⟩ := hr.taken hmsg
    obtain ⟨c, hc, hb⟩ := hr.built hσ hmsg hx sendto
    refine ⟨?_, _, hb, ?_⟩
    · rw [Overflows, if_pos htype]
      rintro ⟨pubkey, hpub, hbad⟩
      cases (getCliPub_calls hx sendto).symm.trans hpub
      rcases hbad with hfit | ⟨out, hout, hlong⟩
      · exact hfit (rsaEncFits_of_pos _ (by rw [hlen]; decide))
      · have hsize := hσ.cli_size (idKey (devId x.1.mem))
        rw [(rsaEnc_length hout).1] at hlong
        omega
    · intro a ha
      have hat := h.at_target ha
      rw [htarget] at hat
      exact ⟨_, hat, Or.inr ⟨i, r, c, hr, rfl, hc, rfl⟩⟩

theorem traced_drain [DecidableEq ι] (hσ : σ.Lawful) (h : Traced σ s) (behind : ℕ → Bytes)
    (sendto : ℕ → ℤ) : ∃ s', exchangeStep σ s (.drain behind sendto) = some s' ∧ Traced σ s' := by
  let chain := takenChain s.queue behind
  let w := σ.calls chain sendto
  have hmem : ∀ x ∈ reached (Stops s.table w) chain.zipIdx,
      x.1.item ∈ s.queue ∧ chain[x.2]? = some x.1 :=
    fun x hx => mem_takenChain (mem_of_mem_reached hx)
  have hfits : ∀ x ∈ reached (Stops s.table w) chain.zipIdx, ¬ Overflows w x :=
    fun x hx => (h.drained hσ sendto (hmem x hx).1 (hmem x hx).2).1
  obtain ⟨c, outs, hrun, hall, _⟩ := sendToDst_some hfits
  have hstep : exchangeStep σ s (.drain behind sendto) = some { s with
      queue := []
      toPeer := s.toPeer ++ outs.map fun x => (x.payload, x.ipv4) } := by
    simp only [exchangeStep]
    rw [hrun, Option.map_some]
  refine ⟨_, hstep, { h with
    queue := fun q hq => absurd hq List.not_mem_nil
    toPeer := ?_ }⟩
  intro y hy
  rcases List.mem_append.mp hy with hy | hy
  · exact h.toPeer y hy
  · obtain ⟨out, hout, rfl⟩ := List.mem_map.mp hy
    obtain ⟨x, hx, hsent⟩ := forall₂_mem_right hall hout
    obtain ⟨_, b, hb, hto⟩ := h.drained hσ sendto (hmem x hx).1 (hmem x hx).2
    rw [hsent.payload b hb]
    exact hto _ hsent.target

end Server

/-! ### What the peers receive -/

section Receiving

variable {ι : Type} {σ : Site ι} {s : Exchange ι}

theorem mem_got_record (i : ι) (st : PeerState) (r : Received) (s : Exchange ι) (x : ι × Bytes) :
    x ∈ (record σ i st r s).got ↔
      x ∈ s.got ∨ x = (i, r.msg) ∧ σ.party i = .client ∧ ifroute r.msg = gNtfCli := by
  simp only [record]
  cases σ.party i with
  | client => by_cases hroute : ifroute r.msg = gNtfCli <;> simp [hroute]
  | notifier => simp

theorem mem_confirmed_record (i : ι) (st : PeerState) (r : Received) (s : Exchange ι)
    (x : ι × Bytes) : x ∈ (record σ i st r s).confirmed ↔
      x ∈ s.confirmed ∨ x = (i, r.msg) ∧ σ.party i = .notifier ∧ ifroute r.msg = gCliNtf := by
  simp only [record]
  cases σ.party i with
  | client => simp
  | notifier => by_cases hroute : ifroute r.msg = gCliNtf <;> simp [hroute]

theorem Traced.setPeer [DecidableEq ι] (h : Traced σ s) (i : ι) {st : PeerState}
    (hbuf : st.bufout.length = maxMsg + 1) (hkey : st.gotAes = true → HasKey st) :
    Traced σ { s with peer := Function.update s.peer i st } where
  __ := h
  peerBufout := by
    intro j
    by_cases hj : j = i
    · subst hj
      simpa using hbuf
    · simpa [Function.update_of_ne hj] using h.peerBufout j
  key := by
    intro j
    by_cases hj : j = i
    · subst hj
      simpa using hkey
    · simpa [Function.update_of_ne hj] using h.key j

/-- A client answers the notification it has received. -/
structure AnswersTo (i : ι) (st : PeerState) (m p : Bytes) : Prop where
  party : σ.party i = .client
  route_eq : ifroute m = gNtfCli
  key : HasKey st
  feedback_eq : p.take sizeofMsgCommon = feedbackOf m

/-- A forwarded message that reaches its target. -/
theorem traced_record (hσ : σ.Lawful) (h : Traced σ s) {i : ι} {st : PeerState} {m : Bytes}
    {feedback : Option Bytes} (hm : Spoken s m) (hid : targetKey m = idKey (σ.iid i))
    (hfb : ∀ p ∈ feedback, AnswersTo (σ := σ) i st m p) :
    Traced σ (record σ i st ⟨m, feedback⟩ s) := by
  have hsent : s.sent ⊆ (record σ i st ⟨m, feedback⟩ s).sent := List.Subset.refl _
  have hgot : s.got ⊆ (record σ i st ⟨m, feedback⟩ s).got :=
    fun x hx => (mem_got_record i st _ s x).mpr (Or.inl hx)
  exact { h with
    got := by
      intro j p hp
      rcases (mem_got_record i st _ s _).mp hp with hp | ⟨heq, hparty, hroute⟩
      · exact h.got j p hp
      · cases heq
        have hne : ifroute m ≠ gCliNtf := by
          rw [hroute]
          decide
        rw [targetKey, if_neg hne] at hid
        rcases h.spoken hm with ⟨_, hin⟩ | ⟨hfwd, _⟩
        · exact ⟨hparty, hin, hid⟩
        · exact absurd hfwd.route_eq hne
    confirmed := by
      intro j p hp
      rcases (mem_confirmed_record i st _ s _).mp hp with hp | ⟨heq, hparty, hroute⟩
      · obtain ⟨hnotifier, k, q, hq, hrest⟩ := h.confirmed j p hp
        exact ⟨hnotifier, k, q, hgot hq, hrest⟩
      · cases heq
        rw [targetKey, if_pos hroute] at hid
        rcases h.spoken hm with ⟨hfwd, _⟩ | ⟨_, k, q, hq, heq, hids⟩
        · exact absurd (hfwd.route_eq.symm.trans hroute) (by decide)
        · refine ⟨hparty, k, q, hgot hq, heq, ?_⟩
          rw [idKey_ntfId, ← hids, ← idKey_ntfId, hid]
    queue := fun q hq => (h.queue q hq).mono hsent hgot
    toMain := by
      intro d hd
      rcases List.mem_append.mp hd with hd | hd
      · exact (h.toMain d hd).mono hsent hgot
      · obtain ⟨p, hp, hd⟩ := Option.bind_eq_some_iff.mp (Option.mem_toList.mp hd)
        obtain ⟨hparty, hroute, hkey, hp⟩ := hfb p hp
        have hin : (i, m) ∈ (record σ i st ⟨m, feedback⟩ s).got :=
          (mem_got_record i st _ s _).mpr (Or.inr ⟨rfl, hparty, hroute⟩)
        obtain ⟨route, hfwd, _⟩ := h.forwarded hm
        obtain ⟨d', hd', hsealed⟩ := aesDatagram_sealed hσ.gcm hkey hfwd.feedback.1.fits
        rw [hp] at hd
        cases hd'.symm.trans hd
        exact Or.inr (Or.inr ⟨_, Or.inr ⟨i, m, hin, rfl⟩, hsealed⟩)
    toPeer := fun x hx => (h.toPeer x hx).mono hsent hgot }

/-- Any other message leaves the records as they are. -/
theorem record_other (i : ι) (st : PeerState) {m : Bytes} (hcli : ifroute m ≠ gNtfCli)
    (hntf : ifroute m ≠ gCliNtf) (s : Exchange ι) : record σ i st ⟨m, none⟩ s = s := by
  simp only [record, if_neg hcli, if_neg hntf, Option.bind_none, Option.toList_none,
    List.append_nil]
  cases σ.party i <;> rfl

/-- What the receive loop makes of a forwarded message. -/
theorem handle_forwarded {route : UInt8} {m : Bytes} (hm : Forwarded route m)
    (hroute : route = gNtfCli ∨ route = gCliNtf) (party : Party) (st : PeerState) {behind : Bytes}
    (hlen : (m ++ behind).length = maxMsg + 1) :
    ∃ b feedback, party.handle st true (m ++ behind) m.length =
        ({ st with bufout := b }, ⟨m, feedback⟩) ∧ b.length = maxMsg + 1 ∧
      (feedback.isSome ↔ party = .client ∧ ifroute m = gNtfCli) ∧
      ∀ p ∈ feedback, p.take sizeofMsgCommon = feedbackOf m := by
  have htake : (m ++ behind).take m.length = m := List.take_left' rfl
  have hr : ifroute (m ++ behind) = route := by
    rw [ifroute, byteAt_append_header hm.header_le _ (by decide)]
    exact hm.route_eq
  cases party with
  | client =>
    by_cases hntf : route = gNtfCli
    · have h1 := setIfroute_length gCliNtf hlen
      let p := setLen (setIfroute (m ++ behind) gCliNtf) (zeros lenU16int)
      refine ⟨p, some p, ?_, (memcpy_length (by rw [h1]; simp)).trans h1, ?_, ?_⟩
      · rw [Party.handle, clientHandle, if_pos (hr.trans hntf), htake]
        rfl
      · simp [hm.route_eq.trans hntf]
      · intro p' hp
        cases hp
        exact feedback_append hm.header_le behind
    · have hother : ¬ (ifroute (m ++ behind) = fSrvCli ∧ msgType (m ++ behind) = msgGetAes) := by
        rw [hr, hroute.resolve_left hntf]
        exact fun h => absurd h.1 (by decide)
      refine ⟨m ++ behind, none, ?_, hlen, by simp [hm.route_eq, hntf], fun p hp => by cases hp⟩
      simp only [Party.handle, clientHandle, hr, if_neg hntf, htake, if_true]
      rw [hr] at hother
      rw [if_neg hother]
  | notifier =>
    have hother : ¬ (ifroute (m ++ behind) = fSrvNtf ∧ msgType (m ++ behind) = msgGetAes) := by
      rw [hr]
      rintro ⟨h, _⟩
      rcases hroute with rfl | rfl <;> exact absurd h (by decide)
    refine ⟨m ++ behind, none, ?_, hlen, by simp, fun p hp => by cases hp⟩
    simp only [Party.handle, notifierHandle, if_neg hother, htake, if_true]

/-- A peer is at the address of its own identifier alone. -/
theorem At.idKey_eq (hσ : σ.Lawful) {k : Bytes} {i : ι} (h : At σ k (σ.addr i)) :
    k = idKey (σ.iid i) := by
  rcases h with hno | ⟨j, haddr, rfl⟩
  · exact absurd hno (hσ.addr_ne i)
  · exact (hσ.addr_iid i j haddr).symm

/-- A reply is no frame. -/
theorem unopened_reply (st : PeerState) (c : Bytes) : Unopened σ st (c ++ [encryptCliPub]) := by
  intro m cipher tag _ heq
  have hlast := congrArg List.getLast? heq
  rw [List.getLast?_concat, List.getLast?_concat] at hlast
  exact absurd hlast (by decide)

section Turn

variable [DecidableEq ι] {i : ι} {d : Bytes} {st : PeerState}

theorem receive_ignored (h : (σ.party i).turn ⟨some (σ.cliPrv (idKey (σ.iid i))), σ.gcm⟩
      (s.peer i) d = some (st, none)) :
    exchangeStep σ s (.receive i d) = some { s with peer := Function.update s.peer i st } := by
  simp only [exchangeStep, h, Option.map_some]

theorem receive_recorded {r : Received} (h : (σ.party i).turn
      ⟨some (σ.cliPrv (idKey (σ.iid i))), σ.gcm⟩ (s.peer i) d = some (st, some r)) :
    exchangeStep σ s (.receive i d) =
      some (record σ i st r { s with peer := Function.update s.peer i st }) := by
  simp only [exchangeStep, h, Option.map_some]

end Turn

/-- A peer with the key receives a forwarded message and answers it if it has to. -/
theorem receive_spoken [DecidableEq ι] (hσ : σ.Lawful) (h : Traced σ s) {i : ι} {m d : Bytes}
    (hm : Spoken s m) (hd : Sealed σ.gcm m d) (hkey : HasKey (s.peer i)) :
    ∃ b feedback, exchangeStep σ s (.receive i d) =
        some (record σ i { s.peer i with bufout := b } ⟨m, feedback⟩
          { s with peer := Function.update s.peer i { s.peer i with bufout := b } }) ∧
      b.length = maxMsg + 1 ∧
      (feedback.isSome ↔ σ.party i = .client ∧ ifroute m = gNtfCli) ∧
      ∀ p ∈ feedback, p.take sizeofMsgCommon = feedbackOf m := by
  obtain ⟨route, hfwd, hroute⟩ := h.forwarded hm
  have hturn := turn_sealed hσ.gcm hfwd.header_le hfwd.fits hd hkey (σ.party i)
    (some (σ.cliPrv (idKey (σ.iid i))))
  have hlen : (m ++ (s.peer i).bufout.drop m.length).length = maxMsg + 1 := by
    have := hfwd.fits
    rw [List.length_append, List.length_drop, h.peerBufout i]
    omega
  obtain ⟨b, feedback, hhandle, hrest⟩ := handle_forwarded hfwd hroute (σ.party i) (s.peer i) hlen
  rw [memcpy_start, hhandle] at hturn
  exact ⟨b, feedback, receive_recorded hturn, hrest⟩

theorem traced_receive [DecidableEq ι] (hσ : σ.Lawful) (h : Traced σ s) {i : ι} {d : Bytes}
    (hhonest : Honest σ s (.receive i d)) :
    ∃ s', exchangeStep σ s (.receive i d) = some s' ∧ Traced σ s' := by
  obtain ⟨hd, hunopened⟩ := hhonest
  have hbuf := h.peerBufout i
  by_cases hshort : d.length < sizeofMsgCommon
  · have hturn := turn_short hshort (σ.party i)
      ⟨some (σ.cliPrv (idKey (σ.iid i))), σ.gcm⟩ (s.peer i)
    exact ⟨_, receive_ignored hturn, h.setPeer i hbuf (h.key i)⟩
  obtain ⟨k, hat, ⟨m, hm, htarget, hsealed⟩ | ⟨j, x, c, hx, hk, henc, rfl⟩⟩ := h.toPeer _ hd
  · rw [hat.idKey_eq hσ] at htarget
    by_cases hkey : HasKey (s.peer i)
    · obtain ⟨b, feedback, hstep, hb, hsome, hfb⟩ := receive_spoken hσ h hm hsealed hkey
      have hst : HasKey { s.peer i with bufout := b } := ⟨hkey.key, hkey.iv⟩
      refine ⟨_, hstep, traced_record hσ (h.setPeer i hb fun _ => hst) hm htarget ?_⟩
      intro p hp
      have hanswers := hsome.mp (Option.isSome_of_mem hp)
      exact ⟨hanswers.1, hanswers.2, hst, hfb p hp⟩
    · obtain ⟨route, hfwd, _⟩ := h.forwarded hm
      obtain ⟨cipher, tag, henc, hd⟩ := hsealed
      obtain ⟨b, hturn, hb⟩ := turn_unopened hfwd.header_le hfwd.fits henc hd hbuf
        (hunopened hkey m cipher tag henc hd) (σ.party i) (some (σ.cliPrv (idKey (σ.iid i))))
      exact ⟨_, receive_ignored hturn, h.setPeer i hb fun hgot => absurd (h.key i hgot) hkey⟩
  · have hsize := (rsaEnc_length henc).1
    have hle : (c ++ [encryptCliPub]).length ≤ maxMsg + 1 := by
      have := hσ.cli_size k
      rw [List.length_append, List.length_singleton]
      omega
    rw [hat.idKey_eq hσ] at henc
    obtain ⟨st, hturn, hbufout, hst, _⟩ := turn_reply x hx.n_eq (hσ.cli_undo _ _ _ henc)
      (Nat.le_of_not_lt hshort) hle (σ.party i) σ.gcm (s.peer i)
    obtain ⟨_, hroute⟩ := x.header_eq []
    rw [List.append_nil] at hroute
    have hother : ∀ r, r = gNtfCli ∨ r = gCliNtf → ifroute x.q.item.msg ≠ r := by
      rw [hroute]
      rintro r (rfl | rfl) <;> cases x.party <;> decide
    have hset : Traced σ { s with peer := Function.update s.peer i st } := by
      refine h.setPeer i (hbufout ▸ hbuf) ?_
      rcases hst with rfl | hst
      · exact h.key i
      · exact fun _ => hst
    have hrecord := record_other (σ := σ) i st (hother _ (Or.inl rfl)) (hother _ (Or.inr rfl))
    exact ⟨_, receive_recorded hturn, (hrecord _).symm ▸ hset⟩

end Receiving

end MemoryLeak.Notify
