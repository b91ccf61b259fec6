import MemoryLeak.Notify.ExchangeRuns

/-!
# Round trips

From every state that honest steps reach, a registered notifier can still get a notification to a
registered client and the answer back. No order of steps, and no datagram that is lost, late or
repeated, leads to a state in which the parties cannot talk any more.
-/
namespace MemoryLeak.Notify
open MemoryLeak.CBytes MemoryLeak.Runs

/-- The public key of the server takes a bare header, and its blocks fit a datagram. -/
structure Site.Able {ι : Type} (σ : Site ι) : Prop where
  srv_encrypts : ∀ m, m.length = sizeofMsgCommon → (rsaEnc σ.srvPub m).isSome
  srv_size : σ.srvPub.size < maxMsg

/-- The table has an item for the identifier. -/
def Known (T : Table) (iid : Bytes) : Prop := ∃ it, RegisteredFor T iid it

section Reaches

variable {ι : Type} [DecidableEq ι] {σ : Site ι} {s s' s'' : Exchange ι}

/-- Honest steps lead from the one state to the other. -/
def Reaches (σ : Site ι) (s s' : Exchange ι) : Prop :=
  ∃ es, AllSteps (exchangeStep σ) (Honest σ) s es ∧ run (exchangeStep σ) s es = some s'

theorem Reaches.refl (s : Exchange ι) : Reaches σ s s := ⟨[], trivial, rfl⟩

theorem Reaches.trans (h : Reaches σ s s') (h' : Reaches σ s' s'') : Reaches σ s s'' := by
  obtain ⟨es, hes, hrun⟩ := h
  obtain ⟨es', hes', hrun'⟩ := h'
  refine ⟨es ++ es', hes.concat fun t ht => ?_, ?_⟩
  · cases hrun.symm.trans ht
    exact hes'
  · rw [run_append, hrun]
    exact hrun'

theorem Reaches.step {e : ExchangeEvent ι} (he : Honest σ s e) (h : exchangeStep σ s e = some s') :
    Reaches σ s s' :=
  ⟨[e], ⟨he, fun _ _ => trivial⟩, by rw [run_cons, h]; rfl⟩

theorem Reaches.traced (hσ : σ.Lawful) (hs : Reaches σ s s') (h : Traced σ s) : Traced σ s' := by
  obtain ⟨es, hes, hrun⟩ := hs
  refine hes.invariant (fun t e t' ht he hstep => ?_) h hrun
  obtain ⟨u, hu, htraced⟩ := traced_step hσ ht he
  cases hu.symm.trans hstep
  exact htraced

/-! ### What no step takes back -/

/-- Keys, identifiers, datagrams and records stay. -/
structure Grows (s s' : Exchange ι) : Prop where
  key : ∀ i, (s.peer i).gotAes = true → (s'.peer i).gotAes = true
  known : ∀ iid, Known s.table iid → Known s'.table iid
  toMain : s.toMain ⊆ s'.toMain
  sent : s.sent ⊆ s'.sent
  got : s.got ⊆ s'.got

omit [DecidableEq ι] in
theorem Grows.refl (s : Exchange ι) : Grows s s :=
  ⟨fun _ h => h, fun _ h => h, List.Subset.refl _, List.Subset.refl _, List.Subset.refl _⟩

omit [DecidableEq ι] in
theorem Grows.trans (h : Grows s s') (h' : Grows s' s'') : Grows s s'' :=
  ⟨fun i hi => h'.key i (h.key i hi), fun iid hi => h'.known iid (h.known iid hi),
    List.Subset.trans h.toMain h'.toMain, List.Subset.trans h.sent h'.sent,
    List.Subset.trans h.got h'.got⟩

theorem known_track {T : Table} (hinv : TableInv T) {iid : Bytes} (h : Known T iid) (msg : Bytes)
    (addr : SockAddrIn) : Known (hlTrackMsg T msg addr).2 iid := by
  obtain ⟨it, b, hmem, hcmp⟩ := h
  rcases hlTrackMsg_cases hinv msg addr with ⟨_, hr⟩ | ⟨_, _, hr⟩
  · rw [hr]
    exact ⟨it, b, hmem, hcmp⟩
  · rw [hr]
    by_cases hb : b = hashId (devId msg)
    · subst hb
      refine ⟨if itemKey it = idKey (devId msg) then it.setIpv4 addr else it,
        hashId (devId msg), ?_, ?_⟩
      · rw [Function.update_self]
        exact List.mem_map_of_mem hmem
      · split_ifs <;> exact hcmp
    · exact ⟨it, b, by rwa [Function.update_of_ne hb], hcmp⟩

theorem exchangeStep_grows (htable : TableInv s.table) {e : ExchangeEvent ι}
    (h : exchangeStep σ s e = some s') : Grows s s' := by
  have hrefl := Grows.refl s
  cases e with
  | track i t =>
    cases h
    exact { hrefl with }
  | request i t =>
    cases h
    exact { hrefl with toMain := List.subset_append_left _ _ }
  | notify i dev text t =>
    simp only [exchangeStep] at h
    split at h
    · cases h
      exact hrefl
    · cases h
      exact { hrefl with
        toMain := List.subset_append_left _ _
        sent := List.subset_append_left _ _ }
  | main d =>
    obtain ⟨r, _, rfl⟩ := Option.map_eq_some_iff.mp h
    exact { hrefl with }
  | thread d cliaddr around stack =>
    obtain ⟨r, hr, rfl⟩ := Option.map_eq_some_iff.mp h
    refine { hrefl with known := fun iid hiid => ?_ }
    rcases sendingRecv_table hr with heq | ⟨p, heq⟩
    · exact heq ▸ hiid
    · exact heq ▸ known_track htable hiid p cliaddr
  | drain behind sendto =>
    obtain ⟨r, _, rfl⟩ := Option.map_eq_some_iff.mp h
    exact { hrefl with }
  | receive i d =>
    obtain ⟨⟨st, r⟩, hturn, rfl⟩ := Option.map_eq_some_iff.mp h
    have hkey : ∀ j, (s.peer j).gotAes = true → (Function.update s.peer i st j).gotAes = true := by
      intro j hj
      by_cases hij : j = i
      · subst hij
        rw [Function.update_self]
        exact turn_gotAes hturn hj
      · rwa [Function.update_of_ne hij]
    cases r with
    | none => exact { hrefl with key := hkey }
    | some r =>
      exact { hrefl with
        key := hkey
        toMain := List.subset_append_left _ _
        got := fun x hx => (mem_got_record i st r _ x).mpr (Or.inl hx) }

theorem Reaches.grows (hσ : σ.Lawful) (hs : Reaches σ s s') (h : Traced σ s) : Grows s s' := by
  obtain ⟨es, hes, hrun⟩ := hs
  have hinv : Traced σ s' ∧ Grows s s' := by
    refine hes.invariant (P := fun t => Traced σ t ∧ Grows s t) (fun t e t' ht he hstep => ?_)
      ⟨h, Grows.refl s⟩ hrun
    obtain ⟨u, hu, htraced⟩ := traced_step hσ ht.1 he
    cases hu.symm.trans hstep
    exact ⟨htraced, ht.2.trans (exchangeStep_grows ht.1.table hstep)⟩
  exact hinv.2

end Reaches

/-! ### Lookups -/

/-- The table has the address of the party. -/
def Tracked {ι : Type} (σ : Site ι) (T : Table) (i : ι) : Prop :=
  ∃ it, RegisteredFor T (σ.iid i) it ∧ it.ipv4 = σ.addr i

/-- A tracking sets the address of a known identifier. -/
theorem tracked_track {T : Table} (hinv : TableInv T) {iid : Bytes} (ht : Terminated iid)
    (h : Known T iid) {msg : Bytes} (hkey : idKey (devId msg) = idKey iid) (addr : SockAddrIn) :
    ∃ it, RegisteredFor (hlTrackMsg T msg addr).2 iid it ∧ it.ipv4 = addr := by
  obtain ⟨it, hreg⟩ := h
  have hfind := findItem_registered hinv ht hreg
  have hhash : hashId iid = hashId (devId msg) := hashId_eq_of_idKey_eq ht hkey.symm
  have hmem : it ∈ (T (hashId (devId msg))).group := hhash ▸ List.mem_of_find?_eq_some hfind
  have hitem : itemKey it = idKey (devId msg) := by
    obtain ⟨_, _, hcmp⟩ := hreg
    rw [hkey, (strncmp_item_iff iid it).mp hcmp]
  rcases hlTrackMsg_cases hinv msg addr with ⟨hno, _⟩ | ⟨_, _, hr⟩
  · exact absurd hitem (hno it hmem)
  · refine ⟨it.setIpv4 addr, ⟨hashId (devId msg), ?_, ?_⟩, rfl⟩
    · rw [hr, Function.update_self]
      have hin := List.mem_map_of_mem (f := fun it => if itemKey it = idKey (devId msg) then
        it.setIpv4 addr else it) hmem
      rwa [if_pos hitem] at hin
    · rw [strncmp_item_iff, itemKey_setIpv4, hitem, hkey]

theorem target_tracked {ι : Type} {σ : Site ι} (hσ : σ.Lawful) {T : Table} (hinv : TableInv T)
    {i : ι} (h : Tracked σ T i) {q : Taken} {iid : Bytes} (hdest : destId q.mem = some iid)
    (hkey : idKey iid = idKey (σ.iid i)) : target T q = some (σ.addr i) := by
  obtain ⟨it, hreg, haddr⟩ := h
  have hterm : Terminated iid := (terminated_iff_of_idKey_eq hkey).mpr (hσ.terminated i)
  have hfind := findItem_registered hinv hterm (hreg.congr hkey.symm)
  rw [target, hdest, Option.bind_some, hfind, Option.map_some, haddr]

theorem destId_forwarded {route : UInt8} {m : Bytes} (hm : Forwarded route m)
    (hroute : route = gNtfCli ∨ route = gCliNtf) (behind : Bytes) :
    ∃ iid, destId (m ++ behind) = some iid ∧ idKey iid = targetKey m := by
  have hr : ifroute (m ++ behind) = route := by
    rw [ifroute, byteAt_append_header hm.header_le _ (by decide)]
    exact hm.route_eq
  have hsome : ∃ iid, destId (m ++ behind) = some iid := by
    rw [destId, hr]
    rcases hroute with rfl | rfl
    · exact ⟨_, if_pos rfl⟩
    · exact ⟨_, rfl⟩
  obtain ⟨iid, hiid⟩ := hsome
  exact ⟨iid, hiid, by rw [destId_targetKey hiid, targetKey_append hm.header_le]⟩

/-! ### Single hops -/

section Hops

variable {ι : Type} [DecidableEq ι] {σ : Site ι} {s : Exchange ι}

omit [DecidableEq ι] in
/-- The server encrypts a bare header in one datagram. -/
theorem under_srvPub (hable : σ.Able) {buf : Bytes} (hlen : buf.length = maxMsg + 1) :
    ∃ d, (rsaDatagram (some σ.srvPub) buf sizeofMsgCommon).bind Sending.sent = some d ∧
      UnderSrvPub σ (buf.take sizeofMsgCommon) d ∧ sizeofMsgCommon ≤ d.length := by
  have htake : (buf.take sizeofMsgCommon).length = sizeofMsgCommon := by
    rw [List.length_take, hlen]
    decide
  have hne : buf.take sizeofMsgCommon ≠ [] := by
    rw [← List.length_pos_iff, htake]
    decide
  obtain ⟨c, hc⟩ := Option.isSome_iff_exists.mp (hable.srv_encrypts _ htake)
  obtain ⟨hsize, hpad⟩ := rsaEnc_length hc
  have hlt : c.length < maxMsg := hsize ▸ hable.srv_size
  refine ⟨c ++ [encryptSrvPub], ?_, ⟨c, hc, hlt, rfl⟩, ?_⟩
  · rw [rsaDatagram_encrypted hne hlen hc, if_neg (by omega)]
  · rw [List.length_append, List.length_singleton]
    omega

/-- A known party gets its address into the table; the queue stays. -/
theorem reaches_tracked (hσ : σ.Lawful) (hable : σ.Able) (h : Traced σ s) {i : ι}
    (hknown : Known s.table (σ.iid i)) :
    ∃ s', Reaches σ s s' ∧ Tracked σ s'.table i ∧ s'.queue = s.queue := by
  let t : Timespec := ⟨0, 0⟩
  obtain ⟨hall, htype, hdev⟩ := trackMsg_spec (hσ.readable i) t
  set m := (trackMsg (σ.iid i) (some t)).take sizeofMsgCommon with hm
  have hlen : m.length = sizeofMsgCommon := by
    rw [hm, List.length_take, hall]
    decide
  have htracking : IsTracking σ i m := ⟨hlen, htype, by rw [idKey_devId, hdev]⟩
  have hsend : ∃ d, σ.trackDatagram i (s.peer i) t = some d ∧
      (UnderSrvPub σ m d ∨ Sealed σ.gcm m d) ∧ sizeofMsgCommon ≤ d.length := by
    by_cases hgot : (s.peer i).gotAes = true
    · obtain ⟨d, hd, hsealed⟩ := aesDatagram_sealed hσ.gcm (h.key i hgot)
        (show m.length + 1 + aesIvBytes ≤ maxMsg + 1 by rw [hlen]; decide)
      refine ⟨d, by rw [Site.trackDatagram, if_pos hgot]; exact hd, Or.inr hsealed, ?_⟩
      rw [hsealed.length]
      omega
    · obtain ⟨d, hd, hunder, hlong⟩ := under_srvPub hable hall
      exact ⟨d, by rw [Site.trackDatagram, if_neg hgot]; exact hd, Or.inl hunder, hlong⟩
  obtain ⟨d, hd, hform, hlong⟩ := hsend
  let s₁ : Exchange ι := { s with toThread := s.toThread ++ [(d, σ.addr i)] }
  have hstep₁ : exchangeStep σ s (.track i t) = some s₁ := by
    simp only [exchangeStep, hd]
    rfl
  have hreach₁ : Reaches σ s s₁ := Reaches.step (e := .track i t) trivial hstep₁
  obtain ⟨r, p, hr, _, hkey, htable⟩ := sendingRecv_tracks hσ (hreach₁.traced hσ h) htracking hform
    hlong (σ.addr i) (fun _ => 0) []
  let s₂ : Exchange ι := { s₁ with threadBufout := r.bufout, table := r.table }
  have hstep₂ : exchangeStep σ s₁ (.thread d (σ.addr i) (fun _ => 0) []) = some s₂ := by
    simp only [exchangeStep, hr, Option.map_some]
    rfl
  have hhonest : Honest σ s₁ (.thread d (σ.addr i) (fun _ => 0) []) :=
    List.mem_append_right _ (List.mem_singleton_self _)
  refine ⟨s₂, hreach₁.trans (Reaches.step hhonest hstep₂), ?_, rfl⟩
  change Tracked σ r.table i
  rw [htable]
  exact tracked_track h.table (hσ.terminated i) hknown hkey (σ.addr i)

/-- The head of the queue is sent to its target. -/
theorem reaches_drained (hσ : σ.Lawful) (h : Traced σ s) {item : FwdItem}
    (hq : s.queue.head? = some item) {a : SockAddrIn} (ha : target s.table ⟨item, []⟩ = some a)
    {b : Bytes} (hb : ∀ chain : List Taken, chain[0]? = some ⟨item, []⟩ →
      built (σ.calls chain (fun _ => 0) 0) ⟨item, []⟩ = some b) :
    ∃ s', Reaches σ s s' ∧ (b, a) ∈ s'.toPeer ∧ s'.peer = s.peer := by
  let chain := takenChain s.queue fun _ => []
  let w := σ.calls chain fun _ => 0
  have hhead : chain[0]? = some ⟨item, []⟩ := by
    obtain ⟨rest, hrest⟩ := List.head?_eq_some_iff.mp hq
    simp only [chain, takenChain, hrest]
    rfl
  have hbuilt := hb chain hhead
  have hfits : ∀ x ∈ reached (Stops s.table w) chain.zipIdx, ¬ Overflows w x := by
    intro x hx
    obtain ⟨hin, hk⟩ := mem_takenChain (mem_of_mem_reached hx)
    exact (h.drained hσ _ hin hk).1
  obtain ⟨c, outs, hrun, hall, _⟩ := sendToDst_some hfits
  have hat : chain.zipIdx[0]? = some (⟨item, []⟩, 0) := by
    rw [List.getElem?_zipIdx, hhead]
    rfl
  have hgoes : ¬ Stops s.table w (⟨item, []⟩, 0) := by
    rintro (hnone | ⟨_, hnone⟩)
    · cases ha.symm.trans hnone
    · cases hbuilt.symm.trans hnone
  have hreached : (⟨item, []⟩, 0) ∈ reached (Stops s.table w) chain.zipIdx := by
    refine mem_reached hat fun y hy => ?_
    rw [List.take_add_one, hat, List.take_zero, List.nil_append] at hy
    rwa [List.mem_singleton.mp hy]
  obtain ⟨out, hout, hsent⟩ := forall₂_mem_left hall hreached
  have hstep : exchangeStep σ s (.drain (fun _ => []) fun _ => 0) = some { s with
      queue := []
      toPeer := s.toPeer ++ outs.map fun x => (x.payload, x.ipv4) } := by
    simp only [exchangeStep]
    rw [hrun, Option.map_some]
  refine ⟨_, Reaches.step (e := .drain _ _) trivial hstep, List.mem_append_right _ ?_, rfl⟩
  have haddr : a = out.ipv4 := Option.some.inj (ha.symm.trans hsent.target)
  rw [haddr, ← hsent.payload b hbuilt]
  exact List.mem_map_of_mem hout

/-- A known party gets the key. -/
theorem reaches_key (hσ : σ.Lawful) (hable : σ.Able) (h : Traced σ s) {i : ι}
    (hknown : Known s.table (σ.iid i)) :
    ∃ s', Reaches σ s s' ∧ (s'.peer i).gotAes = true := by
  obtain ⟨s₁, hreach₁, htracked, _⟩ := reaches_tracked hσ hable h hknown
  -- the request
  obtain ⟨hrequest, hall⟩ := isRequest_cmdMsg hσ i ⟨0, 0⟩
  obtain ⟨d, hd, ⟨c, henc, hc, rfl⟩, hlong⟩ := under_srvPub hable hall
  set m := (cmdMsg msgGetAes (σ.party i).request none (σ.iid i) ⟨0, 0⟩).take sizeofMsgCommon with hm
  have hlen := hrequest.length
  let s₂ : Exchange ι := { s₁ with toMain := s₁.toMain ++ [c ++ [encryptSrvPub]] }
  have hstep₂ : exchangeStep σ s₁ (.request i ⟨0, 0⟩) = some s₂ := by
    have hsend : σ.requestDatagram i ⟨0, 0⟩ = some (c ++ [encryptSrvPub]) := hd
    simp only [exchangeStep, hsend]
    rfl
  have hreach₂ := hreach₁.trans (Reaches.step (e := .request i ⟨0, 0⟩) trivial hstep₂)
  -- the server queues the reply
  have hle : (c ++ [encryptSrvPub]).length ≤ maxMsg + 1 := by
    rw [List.length_append, List.length_singleton]
    omega
  obtain ⟨x, hx, hparty, hn, hp⟩ := mainTurn_request (G := σ.gcm) (hσ.srv_undo m c henc) hlen
    hrequest.type_eq hrequest.route_eq hlong hle (hreach₂.traced hσ h).bufout
  have hreply : IsReply σ i x := by
    refine ⟨hn, ?_⟩
    rw [hp, idKey_devId, ids_append hlen.ge, ← idKey_devId, hrequest.dev_eq]
  let s₃ : Exchange ι := { s₂ with queue := x.q.item :: s₂.queue }
  have hstep₃ : exchangeStep σ s₂ (.main (c ++ [encryptSrvPub])) = some s₃ := by
    simp only [exchangeStep, hx, Option.map_some]
    rfl
  have hhonest₃ : Honest σ s₂ (.main (c ++ [encryptSrvPub])) :=
    List.mem_append_right _ (List.mem_singleton_self _)
  have hreach₃ := hreach₂.trans (Reaches.step hhonest₃ hstep₃)
  have h₃ := hreach₃.traced hσ h
  -- the drain sends it to the peer
  have hmem : (⟨x.q.item, []⟩ : Taken).mem = x.q.item.msg ++ [] := rfl
  obtain ⟨_, _, hkey, _⟩ := hreply.taken (q := ⟨x.q.item, []⟩) rfl
  have htarget : target s₃.table ⟨x.q.item, []⟩ = some (σ.addr i) :=
    target_tracked hσ h₃.table htracked (hmem ▸ x.destId_eq []) hkey
  have hlong148 := x.msg_length hn
  obtain ⟨b, hb⟩ := Option.isSome_iff_exists.mp (hσ.cli_encrypts (idKey (σ.iid i)) x.q.item.msg
    (by rw [hlong148]; decide) (by rw [hlong148]; decide))
  obtain ⟨s₄, hreach₄, hpeer, _⟩ := reaches_drained hσ h₃ rfl htarget
    (b := b ++ [encryptCliPub]) (by
      intro chain hchain
      obtain ⟨b', hb', hbuilt⟩ := hreply.built hσ rfl hchain fun _ => 0
      cases hb.symm.trans hb'
      exact hbuilt)
  -- and the peer installs the key
  obtain ⟨hsize, hpad⟩ := rsaEnc_length hb
  have hcli := hσ.cli_size (idKey (σ.iid i))
  have hdatagram : sizeofMsgCommon ≤ (b ++ [encryptCliPub]).length ∧
      (b ++ [encryptCliPub]).length ≤ maxMsg + 1 := by
    rw [List.length_append, List.length_singleton, hsize]
    rw [hlong148] at hpad
    simp only [sizeofMsgCommon]
    omega
  obtain ⟨st, hturn, _, _, hgot⟩ := turn_reply x hn (hσ.cli_undo _ _ _ hb) hdatagram.1 hdatagram.2
    (σ.party i) σ.gcm (s₄.peer i)
  refine ⟨_, hreach₃.trans (hreach₄.trans (Reaches.step (e := .receive i _)
    ⟨hpeer, fun _ => unopened_reply _ b⟩ (receive_recorded hturn))), ?_⟩
  change (Function.update s₄.peer i st i).gotAes = true
  rw [Function.update_self]
  exact hgot hparty.symm

/-- The server takes a frame and sends its message on to a known party. -/
theorem reaches_forwarded (hσ : σ.Lawful) (hable : σ.Able) (h : Traced σ s) {m d : Bytes}
    (hm : Spoken s m) (hd : d ∈ s.toMain) (hsealed : Sealed σ.gcm m d) {k : ι}
    (hkey : targetKey m = idKey (σ.iid k)) (hknown : Known s.table (σ.iid k)) :
    ∃ s' d', Reaches σ s s' ∧ (d', σ.addr k) ∈ s'.toPeer ∧ Sealed σ.gcm m d' := by
  obtain ⟨s₁, hreach₁, htracked, _⟩ := reaches_tracked hσ hable h hknown
  have h₁ := hreach₁.traced hσ h
  have hd₁ : d ∈ s₁.toMain := (hreach₁.grows hσ h).toMain hd
  obtain ⟨route, hfwd, hroute⟩ := h.forwarded hm
  obtain ⟨b, q, hb, hmsg, _⟩ := mainTurn_sealed hσ.gcm hfwd hroute hsealed (some σ.srvPrv) h₁.bufout
  let s₂ : Exchange ι := { s₁ with bufout := b, queue := q.item :: s₁.queue }
  have hstep₂ : exchangeStep σ s₁ (.main d) = some s₂ := by
    simp only [exchangeStep, hb, Option.map_some]
    rfl
  have hreach₂ := hreach₁.trans (Reaches.step (e := .main d) hd₁ hstep₂)
  have h₂ := hreach₂.traced hσ h
  have hmem : (⟨q.item, []⟩ : Taken).mem = m ++ [] := congrArg (· ++ []) hmsg
  obtain ⟨iid, hdest, hiid⟩ := destId_forwarded hfwd hroute []
  have htarget : target s₂.table ⟨q.item, []⟩ = some (σ.addr k) :=
    target_tracked hσ h₂.table htracked (hmem ▸ hdest) (hiid.trans hkey)
  obtain ⟨_, d', hsealed', hbuilt⟩ := built_forwarded hσ.gcm (q := ⟨q.item, []⟩)
    (show Forwarded route q.item.msg from hmsg ▸ hfwd)
  obtain ⟨s₃, hreach₃, hpeer, _⟩ := reaches_drained hσ h₂ rfl htarget
    fun chain _ => hbuilt _ rfl
  exact ⟨s₃, d', hreach₂.trans hreach₃, hpeer, hmsg ▸ hsealed'⟩

/-- A client with the key takes a notification and answers it. -/
theorem reaches_got (hσ : σ.Lawful) (h : Traced σ s) {i : ι} {m d : Bytes} (hm : Spoken s m)
    (hd : (d, σ.addr i) ∈ s.toPeer) (hsealed : Sealed σ.gcm m d)
    (hgot : (s.peer i).gotAes = true) (hparty : σ.party i = .client)
    (hroute : ifroute m = gNtfCli) :
    ∃ s' d', Reaches σ s s' ∧ (i, m) ∈ s'.got ∧ d' ∈ s'.toMain ∧
      Sealed σ.gcm (feedbackOf m) d' := by
  have hkey := h.key i hgot
  obtain ⟨b, feedback, hstep, _, hsome, hfb⟩ := receive_spoken hσ h hm hsealed hkey
  obtain ⟨p, rfl⟩ := Option.isSome_iff_exists.mp (hsome.mpr ⟨hparty, hroute⟩)
  have hst : HasKey { s.peer i with bufout := b } := ⟨hkey.key, hkey.iv⟩
  obtain ⟨route, hfwd, _⟩ := h.forwarded hm
  obtain ⟨d', hd', hsealed'⟩ := aesDatagram_sealed hσ.gcm hst hfwd.feedback.1.fits
  refine ⟨_, d', Reaches.step (e := .receive i d) ⟨hd, fun hno => absurd hkey hno⟩ hstep, ?_, ?_,
    hsealed'⟩
  · exact (mem_got_record i _ _ _ _).mpr (Or.inr ⟨rfl, hparty, hroute⟩)
  · refine List.mem_append_right _ (Option.mem_toList.mpr ?_)
    rw [Option.bind_some, hfb p rfl]
    exact hd'

/-- A notifier with the key takes an answer. -/
theorem reaches_confirmed (hσ : σ.Lawful) (h : Traced σ s) {i : ι} {m d : Bytes} (hm : Spoken s m)
    (hd : (d, σ.addr i) ∈ s.toPeer) (hsealed : Sealed σ.gcm m d)
    (hgot : (s.peer i).gotAes = true) (hparty : σ.party i = .notifier)
    (hroute : ifroute m = gCliNtf) :
    ∃ s', Reaches σ s s' ∧ (i, m) ∈ s'.confirmed ∧ s'.got = s.got := by
  have hkey := h.key i hgot
  obtain ⟨b, feedback, hstep, _⟩ := receive_spoken hσ h hm hsealed hkey
  refine ⟨_, Reaches.step (e := .receive i d) ⟨hd, fun hno => absurd hkey hno⟩ hstep, ?_, ?_⟩
  · exact (mem_confirmed_record i _ _ _ _).mpr (Or.inr ⟨rfl, hparty, hroute⟩)
  · simp only [record, hparty]

end Hops

/-! ### The registered parties -/

theorem tableStep_known {T : Table} (hinv : TableInv T) {op : TableOp} (hop : op.Sized)
    {iid : Bytes} (h : Known T iid ∨ op.isReg ∧ op.key = idKey iid) :
    Known (tableStep T op).1 iid := by
  cases op with
  | reg msg n t rsa =>
    rcases regToTable_cases hinv hop.1 hop.2 t rsa with ⟨⟨it, hmem, hkey⟩, _, hr⟩ |
      ⟨_, _, it, hkey, _, hr⟩
    · rw [show (tableStep T (.reg msg n t rsa)).1 = T from hr]
      rcases h with h | ⟨_, hop⟩
      · exact h
      · exact ⟨it, _, hmem, (strncmp_item_iff iid it).mpr (hkey.trans hop)⟩
    · rw [show (tableStep T (.reg msg n t rsa)).1 = _ from hr]
      rcases h with ⟨it', b, hmem, hcmp⟩ | ⟨_, hop⟩
      · by_cases hb : b = hashId (devId msg)
        · subst hb
          exact ⟨it', _, by rw [Function.update_self]; exact List.mem_cons_of_mem _ hmem, hcmp⟩
        · exact ⟨it', b, by rwa [Function.update_of_ne hb], hcmp⟩
      · exact ⟨it, _, by rw [Function.update_self]; exact List.mem_cons_self,
          (strncmp_item_iff iid it).mpr (hkey.trans hop)⟩
  | track msg addr =>
    rcases h with h | ⟨hreg, _⟩
    · exact known_track hinv h msg addr
    · cases hreg

/-- A registered identifier is in the table. -/
theorem known_of_registered {T : Table} (hinv : TableInv T) {regs : List TableOp}
    (hregs : ∀ op ∈ regs, op.isReg ∧ op.Sized) {iid : Bytes}
    (h : Known T iid ∨ ∃ op ∈ regs, op.key = idKey iid) : Known (exec tableStep T regs).1 iid := by
  induction regs generalizing T with
  | nil =>
    rcases h with h | ⟨op, hop, _⟩
    · exact h
    · exact absurd hop List.not_mem_nil
  | cons op regs ih =>
    obtain ⟨hreg, hsized⟩ := hregs op List.mem_cons_self
    have hrest : ∀ op ∈ regs, op.isReg ∧ op.Sized :=
      fun op' hop' => hregs op' (List.mem_cons_of_mem _ hop')
    refine ih (tableStep_inv hinv hsized) hrest ?_
    rcases h with h | ⟨op', hop', hkey⟩
    · exact Or.inl (tableStep_known hinv hsized (Or.inl h))
    · rcases List.mem_cons.mp hop' with rfl | hop'
      · exact Or.inl (tableStep_known hinv hsized (Or.inr ⟨hreg, hkey⟩))
      · exact Or.inr ⟨op', hop', hkey⟩

/-! ### With what is printed -/

section Printed

variable {ι : Type} [DecidableEq ι] {σ : Site ι}

/-- Honest steps lead from the one state to the other, with memory behind the table and the
buffers as told. -/
def PrintedReaches (σ : Site ι) (B : Behind → Prop) (s s' : Exchange ι) : Prop :=
  ∃ xs, (∀ x ∈ xs, B x.2) ∧ AllSteps (printedStep σ) (HonestPrinted σ) s xs ∧
    run (printedStep σ) s xs = some s'

theorem PrintedReaches.reaches (hσ : σ.Lawful) {B : Behind → Prop} {s s' : Exchange ι}
    (hs : PrintedReaches σ B s s') (h : Traced σ s) : Reaches σ s s' := by
  obtain ⟨xs, _, hxs, hrun⟩ := hs
  have hstep : ∀ t x t', Traced σ t → HonestPrinted σ t x → printedStep σ t x = some t' →
      Traced σ t' ∧ Honest σ t x.1 ∧ exchangeStep σ t x.1 = some t' :=
    fun _ _ _ ht hx hstep => ⟨traced_printed hσ ht hx hstep, hx, exchangeStep_of_printed hstep⟩
  obtain ⟨hall, hrun⟩ := hxs.map Prod.fst hstep h hrun
  exact ⟨_, hall, hrun⟩

theorem Reaches.printed (hσ : σ.Lawful) {b : Behind} (hb : b.Readable) {s s' : Exchange ι}
    (hs : Reaches σ s s') (h : Traced σ s) : PrintedReaches σ (· = b) s s' := by
  obtain ⟨es, hes, hrun⟩ := hs
  obtain ⟨hall, hrun⟩ := run_printed hσ hb h hes hrun
  refine ⟨_, ?_, hall, hrun⟩
  intro x hx
  obtain ⟨e, _, rfl⟩ := List.mem_map.mp hx
  rfl

end Printed

/-- A registered notifier can still reach a registered client, and hear of it. -/
theorem reaches_round_trip {ι : Type} [DecidableEq ι] {σ : Site ι} (hσ : σ.Lawful)
    (hable : σ.Able) {regs : List TableOp} (hregs : ∀ op ∈ regs, op.isReg ∧ op.Sized)
    {s : Exchange ι} (hs : Reaches σ (exchangeStart ι regs) s) {i j : ι}
    (hi : σ.party i = .client) (hj : σ.party j = .notifier)
    (hri : ∃ op ∈ regs, op.key = idKey (σ.iid i)) (hrj : ∃ op ∈ regs, op.key = idKey (σ.iid j))
    (text : Bytes) (t : Timespec) :
    ∃ s', Reaches σ s s' ∧ (i, σ.notification j (σ.iid i) text t) ∈ s'.got ∧
      (j, feedbackOf (σ.notification j (σ.iid i) text t)) ∈ s'.confirmed := by
  have hstart := traced_start (σ := σ) hregs
  have h := hs.traced hσ hstart
  have hknown := fun k hk => (hs.grows hσ hstart).known (σ.iid k)
    (known_of_registered tableInv_empty hregs (Or.inr hk))
  -- both parties get the key
  obtain ⟨s₁, hreach₁, hkey₁⟩ := reaches_key hσ hable h (hknown j hrj)
  have h₁ := hreach₁.traced hσ h
  have hgrow₁ := hreach₁.grows hσ h
  obtain ⟨s₂, hreach₂, hkeyi⟩ := reaches_key hσ hable h₁ (hgrow₁.known _ (hknown i hri))
  have h₂ := hreach₂.traced hσ h₁
  have hgrow₂ := hgrow₁.trans (hreach₂.grows hσ h₁)
  have hkeyj := (hreach₂.grows hσ h₁).key j hkey₁
  -- the notification goes to the client
  set m := σ.notification j (σ.iid i) text t with hm
  obtain ⟨hdev, hntf⟩ := notification_ids (σ := σ) j (σ.iid i) text t
  have hfwd : Forwarded gNtfCli m := notification_forwarded j (σ.iid i) text t
  have htarget : targetKey m = idKey (σ.iid i) := by
    rw [targetKey, hfwd.route_eq, if_neg (by decide), hm, hdev]
  obtain ⟨d, hsealed, hstep₃⟩ := exchangeStep_notify hσ h₂ hkeyj (σ.iid i) text t
  let s₃ : Exchange ι := { s₂ with toMain := s₂.toMain ++ [d], sent := s₂.sent ++ [(j, m)] }
  have hreach₃ : Reaches σ s₂ s₃ := Reaches.step (e := .notify j _ _ _) ⟨hj, hkeyj⟩ hstep₃
  have h₃ := hreach₃.traced hσ h₂
  have hgrow₃ := hgrow₂.trans (hreach₃.grows hσ h₂)
  have hspoken : Spoken s₃ m := Or.inl ⟨j, List.mem_append_right _ (List.mem_singleton_self _)⟩
  obtain ⟨s₄, d₄, hreach₄, hpeer₄, hsealed₄⟩ := reaches_forwarded hσ hable h₃ hspoken
    (List.mem_append_right _ (List.mem_singleton_self _)) hsealed htarget
    (hgrow₃.known _ (hknown i hri))
  have h₄ := hreach₄.traced hσ h₃
  have hgrow₄ := hreach₄.grows hσ h₃
  have hspoken₄ := hspoken.mono hgrow₄.sent hgrow₄.got
  obtain ⟨s₅, d₅, hreach₅, hgot₅, hmain₅, hsealed₅⟩ := reaches_got hσ h₄ hspoken₄ hpeer₄ hsealed₄
    (hgrow₄.key i hkeyi) hi hfwd.route_eq
  have h₅ := hreach₅.traced hσ h₄
  have hgrow₅ := hreach₅.grows hσ h₄
  -- and its answer to the notifier
  obtain ⟨hfb, hids⟩ := hfwd.feedback
  have hback : targetKey (feedbackOf m) = idKey (σ.iid j) := by
    rw [targetKey, if_pos hfb.route_eq, idKey_ntfId, hids, ← idKey_ntfId, hntf]
  obtain ⟨s₆, d₆, hreach₆, hpeer₆, hsealed₆⟩ := reaches_forwarded hσ hable h₅
    (Or.inr ⟨i, m, hgot₅, rfl⟩) hmain₅ hsealed₅ hback
    ((hgrow₃.trans (hgrow₄.trans hgrow₅)).known _ (hknown j hrj))
  have h₆ := hreach₆.traced hσ h₅
  have hgrow₆ := hreach₆.grows hσ h₅
  obtain ⟨s₇, hreach₇, hconfirmed, hgot₇⟩ := reaches_confirmed hσ h₆
    (Or.inr ⟨i, m, hgrow₆.got hgot₅, rfl⟩) hpeer₆ hsealed₆
    ((hgrow₄.trans (hgrow₅.trans hgrow₆)).key j hkeyj) hj hfb.route_eq
  refine ⟨s₇, ?_, hgot₇ ▸ hgrow₆.got hgot₅, hconfirmed⟩
  exact hreach₁.trans (hreach₂.trans (hreach₃.trans (hreach₄.trans (hreach₅.trans
    (hreach₆.trans hreach₇)))))

theorem sampleSite_able : sampleSite.Able where
  srv_encrypts := fun _ hm =>
    rsaEnc_recorded srvPairs_lengths (by rw [hm]; decide) (by rw [hm]; decide)
  srv_size := show 128 < maxMsg by decide

end MemoryLeak.Notify
