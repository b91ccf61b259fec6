import MemoryLeak.Notify.Server

/-!
# The shared key on the wire

Runs of the server: datagrams received in any order, and drains at any time over
any registration table. The key is appended by a switch on the route and the
encryption chosen by a switch on the type; what goes out for a message with the
key is encrypted as long as the two agree.
-/
namespace MemoryLeak.Notify
open MemoryLeak.CBytes MemoryLeak.Runs

/-- A datagram on the wire: whether its message carries the server's key, and the
calls it was made with. -/
structure WireRec where
  keyed : Bool
  calls : Calls
  sent : Sent

structure ServerState where
  bufout : Bytes
  /-- The forward queue, newest first. -/
  queue : List Queued
  wire : List WireRec

/-- The server at its start, its `bufout` not initialised. -/
def ServerState.init (bufout : Vector UInt8 (maxMsg + 1)) : ServerState := ⟨bufout.toList, [], []⟩

inductive ServerEvent where
  | recv (d : Bytes) (w : RecvCalls)
  | drain (T : Table) (w : ℕ → Calls) (behind : ℕ → Bytes)

/-- The chain a drain takes. -/
def takeQueue (queue : List Queued) (behind : ℕ → Bytes) : List Taken :=
  queue.mapIdx fun k q => ⟨q.item, behind k⟩

/-- The item at this index carries the key. -/
def keyedAt (queue : List Queued) (k : ℕ) : Bool := (queue[k]?).any Queued.keyed

def serverStep (s : ServerState) : ServerEvent → Option ServerState
  | .recv d w => (mainTurn w s.bufout d).map fun r =>
      { s with bufout := r.1, queue := r.2.toList ++ s.queue }
  | .drain T w behind => (sendToDst T true w (takeQueue s.queue behind)).map fun r =>
      { s with
        queue := []
        wire := s.wire ++ r.2.map fun out => ⟨keyedAt s.queue out.index, w out.index, out⟩ }

/-- The datagram is what RSA or AES encryption made of its message. -/
def Encrypted (w : Calls) (s : Sent) : Prop :=
  (∃ pubkey cipher, w.getCliPub = some pubkey ∧ rsaEnc pubkey s.item.msg = some cipher ∧
    s.payload = cipher ++ [encryptCliPub]) ∨
  ∃ cipher tag, w.gcm.encrypt aesKey ivBytes s.item.msg = some (cipher, tag) ∧
    s.payload = cipher ++ tag ++ [encryptAes]

/-- No message with the key has left the server unencrypted. -/
def KeySecret (s : ServerState) : Prop := ∀ r ∈ s.wire, r.keyed = true → Encrypted r.calls r.sent

/-- A drain reaches a message with the key only as a notification, or as a reply
whose encryption succeeds. -/
def EncryptsKeyed (s : ServerState) : ServerEvent → Prop
  | .recv _ _ => True
  | .drain T w behind =>
    ∀ x ∈ reached (Stops T w) (takeQueue s.queue behind).zipIdx, keyedAt s.queue x.2 = true →
      msgType x.1.mem = msgNtf ∨ msgType x.1.mem = msgGetAes ∧
        ∃ pubkey ∈ (w x.2).getCliPub, (rsaEnc pubkey x.1.item.msg).isSome

theorem serverStep_keySecret {s s' : ServerState} {e : ServerEvent} (hs : KeySecret s)
    (he : EncryptsKeyed s e) (hstep : serverStep s e = some s') : KeySecret s' := by
  cases e with
  | recv d w =>
    simp only [serverStep, Option.map_eq_some_iff] at hstep
    obtain ⟨r, _, rfl⟩ := hstep
    exact hs
  | drain T w behind =>
    simp only [serverStep, Option.map_eq_some_iff] at hstep
    obtain ⟨⟨c, outs⟩, hrun, rfl⟩ := hstep
    obtain ⟨_, hall, _⟩ := sendToDst_spec hrun
    intro r hr hkeyed
    rcases List.mem_append.mp hr with hr | hr
    · exact hs r hr hkeyed
    · obtain ⟨out, hout, rfl⟩ := List.mem_map.mp hr
      obtain ⟨x, hx, hsent⟩ := forall₂_mem_right hall hout
      simp only [hsent.index] at hkeyed ⊢
      rcases he x hx hkeyed with hntf | ⟨hget, pubkey, hkey, henc⟩
      · obtain ⟨cipher, tag, henc, hbuilt⟩ := ntf_encrypted (not_stops_of_mem_reached hx) hntf
        exact Or.inr ⟨cipher, tag, by rw [hsent.item, henc], hsent.payload _ hbuilt⟩
      · obtain ⟨cipher, hcipher⟩ := Option.isSome_iff_exists.mp henc
        rw [Option.mem_def] at hkey
        have hbuilt : built (w x.2) x.1 = some (cipher ++ [encryptCliPub]) := by
          simp [built, hget, hkey, hcipher]
        exact Or.inl ⟨pubkey, cipher, hkey, by rw [hsent.item, hcipher], hsent.payload _ hbuilt⟩

/-- In a run whose drains reach the messages with the key only to encrypt them, the
key leaves the server encrypted. -/
theorem server_key_secret (bufout : Vector UInt8 (maxMsg + 1)) (es : List ServerEvent)
    (h : AllSteps serverStep EncryptsKeyed (ServerState.init bufout) es) (s : ServerState)
    (hrun : run serverStep (ServerState.init bufout) es = some s) : KeySecret s :=
  h.invariant (fun _ _ _ hs he hstep => serverStep_keySecret hs he hstep)
    (by intro r hr; cases hr) hrun

theorem server_key_secret_sample :
    let T := (exec tableStep emptyTable [.reg (header msgReg gNtfCli [100, 49] []) 100 none none]).1
    let es : List ServerEvent := [.recv requestBytes ⟨none, Gcm.failing⟩,
      .drain T (fun _ => ⟨some replyPub, Gcm.failing, 161⟩) (fun _ => [])]
    ∃ s, run serverStep (ServerState.init (Vector.replicate 1201 0)) es = some s ∧
      s.wire.map (fun r => (r.keyed, r.sent.payload)) = [(true, replyCipher ++ [encryptCliPub])] ∧
      KeySecret s := by
  intro T es
  have hsent : (run serverStep (ServerState.init (Vector.replicate 1201 0)) es).map
      (fun s => s.wire.map fun r => (r.keyed, r.sent.payload)) =
      some [(true, replyCipher ++ [encryptCliPub])] := by decide +kernel
  obtain ⟨s, hrun, hwire⟩ := Option.map_eq_some_iff.mp hsent
  refine ⟨s, hrun, hwire, server_key_secret _ es ⟨trivial, ?_⟩ s hrun⟩
  intro s' hrecv
  refine ⟨?_, fun _ _ => trivial⟩
  have hqueue : (serverStep (ServerState.init (Vector.replicate 1201 0))
      (.recv requestBytes ⟨none, Gcm.failing⟩)).map (fun s => s.queue.map fun q => q.item.msg) =
      some [replyBytes] := by decide +kernel
  rw [hrecv, Option.map_some, Option.some.injEq] at hqueue
  obtain ⟨q, hq, hmsg⟩ := List.map_eq_singleton_iff.mp hqueue
  intro x hx _
  have hx' : x = (⟨q.item, []⟩, 0) := by
    simpa [hq, takeQueue] using mem_of_mem_reached hx
  subst hx'
  refine Or.inr ⟨?_, _, rfl, ?_⟩
  · have htype : msgType (replyBytes ++ []) = msgGetAes := by decide +kernel
    rwa [Taken.mem, hmsg]
  · rw [hmsg]
    decide +kernel

/-! ### Where the condition fails -/

/-- The message ends with the server's key and iv. -/
def CarriesKey (q : Queued) : Prop := ∃ n, q.item.msg.drop n = aesKey ++ ivBytes

structure ServerInv (s : ServerState) : Prop where
  bufout : s.bufout.length = maxMsg + 1
  queue : ∀ q ∈ s.queue, q.keyed = true → CarriesKey q

theorem routeMsg_inv {p : Bytes} {n : ℕ} {r : Bytes × Option Queued} (hp : p.length = maxMsg + 1)
    (hn : n ≤ maxMsg + 1) (h : routeMsg p n = some r) :
    r.1.length = maxMsg + 1 ∧ ∀ q ∈ r.2, q.keyed = true → CarriesKey q := by
  have hreply : ∀ route, replyKey p n route = some r →
      r.1.length = maxMsg + 1 ∧ ∀ q ∈ r.2, q.keyed = true → CarriesKey q := by
    rintro route hr
    obtain ⟨b, o⟩ := r
    rcases replyKey_cases (n := n) route hp with ⟨hfit, q, hq, _⟩ | ⟨_, hnone⟩
    · rw [hq] at hr
      cases hr
      refine ⟨appendKey_length route hp hfit, ?_⟩
      rintro q' hq' _
      cases hq'
      exact ⟨n, replyKey_drop hp hq⟩
    · rw [hnone] at hr
      cases hr
  rcases routeMsg_cases hp hn with ⟨q, hr, _, hkeyed, _⟩ | ⟨hr, _⟩ | ⟨_, hr⟩ | ⟨_, hr⟩
  · rw [hr] at h
    cases h
    refine ⟨hp, ?_⟩
    rintro q' hq' htrue
    cases hq'
    rw [hkeyed] at htrue
    cases htrue
  · rw [hr] at h
    cases h
    exact ⟨hp, by simp⟩
  · exact hreply _ (hr.symm.trans h)
  · exact hreply _ (hr.symm.trans h)

theorem mainTurn_inv {w : RecvCalls} {bufout d : Bytes} {r : Bytes × Option Queued}
    (hb : bufout.length = maxMsg + 1) (h : mainTurn w bufout d = some r) :
    r.1.length = maxMsg + 1 ∧ ∀ q ∈ r.2, q.keyed = true → CarriesKey q := by
  have hn : min d.length (maxMsg + 1) ≤ maxMsg + 1 := Nat.min_le_right _ _
  simp only [mainTurn] at h
  split_ifs at h with h1 h2
  · cases h
    exact ⟨hb, by simp⟩
  · cases h
    exact ⟨hb, by simp⟩
  · cases hdec : decode w (recvBuf d) bufout (min d.length (maxMsg + 1)) with
    | fault => simp [hdec] at h
    | ignored b =>
      rw [hdec] at h
      cases h
      exact ⟨decode_ignored hb (by rw [recvBuf_length]; exact hn) hdec, by simp⟩
    | message inBufout p n =>
      rw [hdec, Option.map_eq_some_iff] at h
      obtain ⟨r', hr', rfl⟩ := h
      obtain ⟨hp, _, hle, _⟩ := decode_message (recvBuf_length d) hb (by omega) hn hdec
      obtain ⟨hlen, hcarries⟩ := routeMsg_inv hp hle hr'
      refine ⟨?_, hcarries⟩
      cases inBufout with
      | true => exact hlen
      | false => exact hb

theorem server_inv (bufout : Vector UInt8 (maxMsg + 1)) (es : List ServerEvent) (s : ServerState)
    (hrun : run serverStep (ServerState.init bufout) es = some s) : ServerInv s := by
  have hinit : ServerInv (ServerState.init bufout) :=
    ⟨by simp [ServerState.init], by simp [ServerState.init]⟩
  refine AllSteps.invariant (C := fun _ _ => True) ?_ hinit
    (allSteps_of_forall (fun _ _ => trivial) _ _) hrun
  rintro s e s' hs - hstep
  cases e with
  | recv d w =>
    simp only [serverStep, Option.map_eq_some_iff] at hstep
    obtain ⟨r, hturn, rfl⟩ := hstep
    obtain ⟨hlen, hcarries⟩ := mainTurn_inv hs.bufout hturn
    refine ⟨hlen, ?_⟩
    intro q hq hkeyed
    rcases List.mem_append.mp hq with hq | hq
    · exact hcarries q (by simpa using hq) hkeyed
    · exact hs.queue q hq hkeyed
  | drain T w behind =>
    simp only [serverStep, Option.map_eq_some_iff] at hstep
    obtain ⟨r, _, rfl⟩ := hstep
    exact ⟨hs.bufout, by simp⟩

/-- A message with the key that a drain reaches under any other type goes out as it
is, the key at its end. -/
theorem keyed_plain_leaks {s s' : ServerState} (hs : ServerInv s) {T : Table} {w : ℕ → Calls}
    {behind : ℕ → Bytes} (hstep : serverStep s (.drain T w behind) = some s') {x : Taken × ℕ}
    (hx : x ∈ reached (Stops T w) (takeQueue s.queue behind).zipIdx)
    (hkeyed : keyedAt s.queue x.2 = true) (hget : msgType x.1.mem ≠ msgGetAes)
    (hntf : msgType x.1.mem ≠ msgNtf) :
    ∃ r ∈ s'.wire, r.keyed = true ∧ ∃ n, r.sent.payload.drop n = aesKey ++ ivBytes := by
  simp only [serverStep, Option.map_eq_some_iff] at hstep
  obtain ⟨⟨c, outs⟩, hrun, rfl⟩ := hstep
  obtain ⟨_, hall, _⟩ := sendToDst_spec hrun
  obtain ⟨out, hout, hsent⟩ := forall₂_mem_left hall hx
  have hbuilt : built (w x.2) x.1 = some x.1.item.msg := by simp [built, hget, hntf]
  have hitem := List.mem_zipIdx_iff_getElem?.mp (mem_of_mem_reached hx)
  simp only [takeQueue, List.getElem?_mapIdx, Option.map_eq_some_iff] at hitem
  obtain ⟨q, hq, hqx⟩ := hitem
  have hqkeyed : q.keyed = true := by simpa [keyedAt, hq] using hkeyed
  obtain ⟨n, hdrop⟩ := hs.queue q (List.mem_of_getElem? hq) hqkeyed
  refine ⟨_, List.mem_append_right _ (List.mem_map_of_mem hout), ?_, n, ?_⟩
  · rw [hsent.index, hkeyed]
  · rw [hsent.payload _ hbuilt, ← hqx, hdrop]

/-- A device asks for the key with a message of another type, and gets it in plain. -/
theorem server_sends_key_in_plain :
    ¬ ∀ (bufout : Vector UInt8 (maxMsg + 1)) (es : List ServerEvent) (s : ServerState),
      run serverStep (ServerState.init bufout) es = some s → KeySecret s := by
  intro h
  let T := (exec tableStep emptyTable [.reg (header msgReg gNtfCli [100, 49] []) 100 none none]).1
  let es : List ServerEvent := [.recv (header msgTra gCliSrv [100, 49] []) ⟨none, Gcm.failing⟩,
    .drain T (fun _ => ⟨none, Gcm.failing, 148⟩) (fun _ => [])]
  -- the one datagram has a message with the key and was made without any encryption
  let bare : WireRec → Bool := fun r => r.keyed && r.calls.getCliPub.isNone &&
    (r.calls.gcm.encrypt aesKey ivBytes r.sent.item.msg).isNone
  have hwire : (run serverStep (ServerState.init (Vector.replicate 1201 0)) es).map
      (fun s => s.wire.map bare) = some [true] := by decide +kernel
  obtain ⟨s, hrun, hmap⟩ := Option.map_eq_some_iff.mp hwire
  obtain ⟨r, hr, hbare⟩ := List.mem_map.mp (show true ∈ s.wire.map bare by simp [hmap])
  simp only [bare, Bool.and_eq_true, Option.isNone_iff_eq_none] at hbare
  rcases h _ es s hrun r hr hbare.1.1 with ⟨pubkey, _, hkey, _⟩ | ⟨cipher, tag, henc, _⟩
  · rw [hbare.1.2] at hkey
    cases hkey
  · rw [hbare.2] at henc
    cases henc

end MemoryLeak.Notify
