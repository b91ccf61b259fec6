import MemoryLeak.Notify.ExchangeSafety

/-!
# Runs with what they print

`DUM_MSG` prints every message that the server decodes, every request and every notification. Its
table names six routes, so it reads behind it at a notifier's request, and there alone.
-/
namespace MemoryLeak.Notify
open MemoryLeak.CBytes MemoryLeak.Runs

/-! ### What the parties can rely on -/

section Safe

variable {ι : Type} {σ : Site ι}

/-- What the parties can rely on. -/
structure ExchangeSafe (σ : Site ι) (s : Exchange ι) : Prop where
  key : ∀ i, (s.peer i).gotAes = true → HasKey (s.peer i)
  /-- A notifier sent it to the identifier of the client. -/
  got : ∀ i m, (i, m) ∈ s.got → σ.party i = .client ∧ ∃ j dev text t, σ.party j = .notifier ∧
    (j, m) ∈ s.sent ∧ m = σ.notification j dev text t ∧ idKey dev = idKey (σ.iid i)
  /-- A client received a notification of this notifier and answered it. -/
  confirmed : ∀ j m, (j, m) ∈ s.confirmed → σ.party j = .notifier ∧
    ∃ i p k, (i, p) ∈ s.got ∧ (k, p) ∈ s.sent ∧ m = feedbackOf p ∧
      idKey (σ.iid k) = idKey (σ.iid j)

theorem Traced.safe {s : Exchange ι} (h : Traced σ s) : ExchangeSafe σ s where
  key := h.key
  got := by
    intro i m hm
    obtain ⟨hparty, ⟨j, hj⟩, hid⟩ := h.got i m hm
    obtain ⟨hnotifier, dev, text, t, rfl⟩ := h.sent j m hj
    refine ⟨hparty, j, dev, text, t, hnotifier, hj, rfl, ?_⟩
    rw [← (notification_ids j dev text t).1, hid]
  confirmed := by
    intro j m hm
    obtain ⟨hparty, i, p, hp, rfl, hid⟩ := h.confirmed j m hm
    obtain ⟨_, ⟨k, hk⟩, _⟩ := h.got i p hp
    obtain ⟨_, dev, text, t, rfl⟩ := h.sent k p hk
    refine ⟨hparty, i, _, k, hp, hk, rfl, ?_⟩
    rw [← (notification_ids k dev text t).2, hid]

end Safe

/-! ### What is printed -/

section Prints

variable {ι : Type} {σ : Site ι}

/-- The request of a notifier, where it is made and where the server has received it. -/
def NotifierRequest (σ : Site ι) : ExchangeEvent ι → Prop
  | .request i _ => σ.party i = .notifier
  | .main d => sizeofMsgCommon ≤ d.length ∧ ∃ c m, d = c ++ [encryptSrvPub] ∧
    rsaDec σ.srvPrv c = some m ∧ ifroute m = gNtfSrv
  | _ => False

/-- A call of `DUM_MSG` for a message whose text fits, but for the name of a route. -/
structure Fits (c : DumCall) : Prop where
  place : c.file.length + c.func.length + (toString c.line).length ≤ 64
  header : sizeofMsgCommon ≤ c.item.length
  printable : Printable c.item

theorem Printable.append {m : Bytes} (h : Printable m) (hlen : sizeofMsgCommon ≤ m.length)
    (behind : Bytes) : Printable (m ++ behind) ∧ ifroute (m ++ behind) = ifroute m := by
  have hkey : idKey (ntfId (m ++ behind)) = idKey (ntfId m) := by
    rw [idKey_ntfId, idKey_ntfId, ids_append hlen]
  have htype : msgType (m ++ behind) = msgType m := byteAt_append_header hlen behind (by decide)
  refine ⟨⟨?_, (terminated_iff_of_idKey_eq hkey).mpr h.ntf⟩,
    byteAt_append_header hlen behind (by decide)⟩
  rw [htype]
  exact h.type_lt

/-- It prints whatever the route if that has a short name. -/
theorem Fits.print_isSome {c : DumCall} (h : Fits c) {b : Behind} {name : String}
    (hshort : name.length ≤ 1024)
    (hname : (ifrText ++ b.ifr)[(ifroute c.item).toNat]? = some name) : (c.print b).isSome := by
  obtain ⟨hprint, hroute⟩ := h.printable.append h.header b.stack
  exact hprint.dumMsgIn_isSome (hroute ▸ hname) hshort h.place

/-- The six names are short. -/
theorem Fits.print_named {c : DumCall} (h : Fits c) (hroute : (ifroute c.item).toNat < 6)
    (b : Behind) : (c.print b).isSome := by
  have hlt : (ifroute c.item).toNat < ifrText.length := hroute
  have hall : ∀ name ∈ ifrText, name.length ≤ 1024 := by decide
  refine h.print_isSome (hall ifrText[(ifroute c.item).toNat] (List.getElem_mem _)) ?_
  rw [List.getElem?_append_left hlt, List.getElem?_eq_getElem hlt]

/-- The route of a notifier's request is read behind them. -/
theorem Fits.print_behind {c : DumCall} (h : Fits c) (hroute : ifroute c.item = gNtfSrv)
    (b : Behind) :
    (∀ name ∈ b.ifr.head?, name.length ≤ 1024 → (c.print b).isSome) ∧
      (b.ifr = [] → c.print b = none) := by
  have hindex : (ifroute c.item).toNat = ifrText.length := by
    rw [hroute]
    rfl
  constructor
  · intro name hname hshort
    refine h.print_isSome hshort ?_
    rw [hindex, List.getElem?_append_right le_rfl, Nat.sub_self, ← List.head?_eq_getElem?]
    exact hname
  · intro hno
    rw [← Option.not_isSome_iff_eq_none, DumCall.print, dumMsgIn_isSome_iff, hno,
      List.append_nil, (h.printable.append h.header b.stack).2, hindex]
    exact fun hfits => lt_irrefl _ hfits.2.1

/-- The notification of a notifier, with what is behind it in the buffer. -/
theorem printable_notification (hσ : σ.Lawful) (i : ι) (dev text : Bytes) (t : Timespec) :
    Printable (σ.notification i dev text t) where
  type_lt := by
    rw [(notification_forwarded i dev text t).type_eq]
    decide
  ntf := (terminated_iff_of_idKey_eq (notification_ids i dev text t).2).mpr (hσ.terminated i)

/-- Notifications and answers. -/
theorem Traced.printable {s : Exchange ι} (hσ : σ.Lawful) (h : Traced σ s) {m : Bytes}
    (hm : Spoken s m) :
    Printable m ∧ sizeofMsgCommon ≤ m.length ∧ (ifroute m).toNat < 6 := by
  obtain ⟨route, hfwd, hroute⟩ := h.forwarded hm
  have hsent : ∀ i p, (i, p) ∈ s.sent → Printable p := by
    intro i p hi
    obtain ⟨dev, text, t, rfl⟩ := (h.sent i p hi).message
    exact printable_notification hσ i dev text t
  have hntf : Terminated (ntfId m) := by
    rcases h.spoken hm with ⟨_, i, hi⟩ | ⟨_, i, p, hp, rfl, hids⟩
    · exact (hsent i m hi).ntf
    · obtain ⟨_, ⟨j, hj⟩, _⟩ := h.got i p hp
      have hkey : idKey (ntfId (feedbackOf p)) = idKey (ntfId p) := by
        rw [idKey_ntfId, idKey_ntfId, hids]
      exact (terminated_iff_of_idKey_eq hkey).mpr (hsent j p hj).ntf
  refine ⟨⟨by rw [hfwd.type_eq]; decide, hntf⟩, hfwd.header_le, ?_⟩
  rw [hfwd.route_eq]
  rcases hroute with rfl | rfl <;> decide

/-- What a step prints: a message of a named route, or a notifier's request. -/
structure Prints (σ : Site ι) (e : ExchangeEvent ι) (c : DumCall) : Prop where
  fits : Fits c
  route : NotifierRequest σ e ∧ ifroute c.item = gNtfSrv ∨
    ¬ NotifierRequest σ e ∧ (ifroute c.item).toNat < 6

theorem IsRequest.prints {i : ι} {m behind : Bytes} (hm : IsRequest σ i m) {c : DumCall}
    (hplace : c.file.length + c.func.length + (toString c.line).length ≤ 64)
    (hitem : c.item = m ++ behind) {e : ExchangeEvent ι}
    (he : NotifierRequest σ e ↔ σ.party i = .notifier) : Prints σ e c := by
  have hprint : Printable m := ⟨by rw [hm.type_eq]; decide, hm.ntf⟩
  obtain ⟨happend, hroute⟩ := hprint.append hm.length.ge behind
  have hheader : sizeofMsgCommon ≤ (m ++ behind).length := by
    rw [List.length_append, hm.length]
    exact Nat.le_add_right _ _
  refine ⟨⟨hplace, hitem ▸ hheader, hitem ▸ happend⟩, ?_⟩
  rw [he, hitem, hroute, hm.route_eq]
  cases σ.party i with
  | client => exact Or.inr ⟨by simp, by decide⟩
  | notifier => exact Or.inl ⟨rfl, rfl⟩

/-- A message of a named route, wherever it stands. -/
theorem prints_named {m behind : Bytes} (hprint : Printable m)
    (hlen : sizeofMsgCommon ≤ m.length) (hlt : (ifroute m).toNat < 6) {c : DumCall}
    (hplace : c.file.length + c.func.length + (toString c.line).length ≤ 64)
    (hitem : c.item = m ++ behind) {e : ExchangeEvent ι} (he : ¬ NotifierRequest σ e) :
    Prints σ e c := by
  obtain ⟨happend, hroute⟩ := hprint.append hlen behind
  have hheader : sizeofMsgCommon ≤ (m ++ behind).length := by
    rw [List.length_append]
    exact hlen.trans (Nat.le_add_right _ _)
  refine ⟨⟨hplace, hitem ▸ hheader, hitem ▸ happend⟩, Or.inr ⟨he, ?_⟩⟩
  rw [hitem, hroute]
  exact hlt

theorem Traced.prints_spoken {s : Exchange ι} (hσ : σ.Lawful) (h : Traced σ s)
    {m behind : Bytes} (hm : Spoken s m) {c : DumCall}
    (hplace : c.file.length + c.func.length + (toString c.line).length ≤ 64)
    (hitem : c.item = m ++ behind) {e : ExchangeEvent ι} (he : ¬ NotifierRequest σ e) :
    Prints σ e c := by
  obtain ⟨hprint, hlen, hlt⟩ := h.printable hσ hm
  exact prints_named hprint hlen hlt hplace hitem he

theorem prints_main (hσ : σ.Lawful) {s : Exchange ι} (h : Traced σ s) {d : Bytes}
    (hd : d ∈ s.toMain) :
    (∃ c, dumCall σ s (.main d) = some c ∧ Prints σ (.main d) c) ∨
      dumCall σ s (.main d) = none ∧ ¬ NotifierRequest σ (.main d) := by
  by_cases hshort : d.length < sizeofMsgCommon
  · right
    have hmin : min d.length (maxMsg + 1) < sizeofMsgCommon := (Nat.min_le_left _ _).trans_lt hshort
    simp only [dumCall, if_pos hmin]
    exact ⟨trivial, fun hreq => absurd hreq.1 (Nat.not_le_of_lt hshort)⟩
  left
  rcases h.toMain d hd with rfl | ⟨i, m, hm, c, henc, hc, rfl⟩ | ⟨m, hm, cipher, tag, henc, rfl⟩
  · exact absurd (by decide) hshort
  · have hle : (c ++ [encryptSrvPub]).length ≤ maxMsg + 1 := by
      rw [List.length_append, List.length_singleton]
      omega
    have hundo := hσ.srv_undo m c henc
    have hdecode := decode_rsa (w := ⟨some σ.srvPrv, σ.gcm⟩) rfl hundo
      (by rw [hm.length]; decide) hle s.bufout
    have hreq : NotifierRequest σ (.main (c ++ [encryptSrvPub])) ↔ σ.party i = .notifier := by
      constructor
      · rintro ⟨_, c', m', heq, hdec, hroute⟩
        obtain rfl := List.append_cancel_right heq
        cases hundo.symm.trans hdec
        rw [hm.route_eq] at hroute
        cases hparty : σ.party i with
        | client => rw [hparty] at hroute; exact absurd hroute (by decide)
        | notifier => rfl
      · intro hparty
        exact ⟨Nat.le_of_not_lt hshort, c, m, rfl, hundo, by rw [hm.route_eq, hparty]; rfl⟩
    refine ⟨⟨"server.c", "main", 352, m ++ zeros (maxMsg + 1 - m.length)⟩, ?_,
      hm.prints (by dsimp only; decide) rfl hreq⟩
    simp only [dumCall, Nat.min_eq_left hle, if_neg hshort, hdecode]
  · obtain ⟨_, hfwd, _⟩ := h.forwarded hm
    have hle := encrypted_length_le henc hfwd.fits
    have hdecode := decode_aes (w := ⟨some σ.srvPrv, σ.gcm⟩) henc (hσ.gcm.undo _ _ _ _ _ henc)
      hfwd.fits s.bufout
    have hreq : ¬ NotifierRequest σ (.main (cipher ++ tag ++ [encryptAes])) := by
      rintro ⟨_, c, m', heq, _⟩
      have hlast := congrArg List.getLast? heq
      rw [List.getLast?_concat, List.getLast?_concat] at hlast
      exact absurd hlast (by decide)
    refine ⟨⟨"server.c", "main", 352, m ++ s.bufout.drop m.length⟩, ?_,
      h.prints_spoken hσ hm (by dsimp only; decide) rfl hreq⟩
    simp only [dumCall, Nat.min_eq_left hle, if_neg hshort, hdecode, memcpy_start]

/-- A peer decodes a notification, an answer or the reply to a request. -/
theorem Traced.peer_decodes {s : Exchange ι} (hσ : σ.Lawful) (h : Traced σ s) {i : ι} {d : Bytes}
    (hhonest : Honest σ s (.receive i d)) {inBufout : Bool} {p : Bytes} {n : ℕ}
    (hp : peerDecode ⟨some (σ.cliPrv (idKey (σ.iid i))), σ.gcm⟩ (s.peer i) (recvBuf d)
      (min d.length (maxMsg + 1)) = .message inBufout p n) :
    (∃ m behind, Spoken s m ∧ p = m ++ behind) ∨ ifroute p ≠ gNtfCli := by
  obtain ⟨hd, hunopened⟩ := hhonest
  obtain ⟨k, hat, ⟨m, hm, _, cipher, tag, henc, rfl⟩ | ⟨j, x, c, hx, hk, henc, rfl⟩⟩ :=
    h.toPeer _ hd
  · obtain ⟨_, hfwd, _⟩ := h.forwarded hm
    rw [Nat.min_eq_left (encrypted_length_le henc hfwd.fits)] at hp
    left
    by_cases hkey : HasKey (s.peer i)
    · have hdec := hσ.gcm.undo _ _ _ _ _ henc
      rw [← hkey.key, ← hkey.iv] at henc hdec
      have hmsg := peerDecode_aes
        (w := ⟨some (σ.cliPrv (idKey (σ.iid i))), σ.gcm⟩) henc hdec hfwd.fits
      cases hmsg.symm.trans hp
      exact ⟨m, _, hm, memcpy_start _ _⟩
    · have hdrop := peerDecode_unopened hfwd.fits henc (hunopened hkey m cipher tag henc rfl)
        (some (σ.cliPrv (idKey (σ.iid i))))
      cases hdrop.symm.trans hp
  · have hsize := (rsaEnc_length henc).1
    have hle : (c ++ [encryptCliPub]).length ≤ maxMsg + 1 := by
      have := hσ.cli_size k
      rw [List.length_append, List.length_singleton]
      omega
    rw [hat.idKey_eq hσ] at henc
    rw [Nat.min_eq_left hle] at hp
    have hmsg := peerDecode_rsa (w := ⟨some (σ.cliPrv (idKey (σ.iid i))), σ.gcm⟩) rfl
      (hσ.cli_undo _ _ _ henc) (by rw [x.msg_length hx.n_eq]; decide) hle (s.peer i)
    cases hmsg.symm.trans hp
    right
    rw [(x.header_eq _).2]
    cases x.party <;> decide

theorem prints_receive (hσ : σ.Lawful) {s : Exchange ι} (h : Traced σ s) {i : ι} {d : Bytes}
    (hhonest : Honest σ s (.receive i d)) {c : DumCall}
    (hc : dumCall σ s (.receive i d) = some c) : Prints σ (.receive i d) c := by
  simp only [dumCall] at hc
  split_ifs at hc with hmin
  split at hc
  · rename_i _ inBufout p n hparty hdecode
    split_ifs at hc with hroute
    cases hc
    rcases h.peer_decodes hσ hhonest hdecode with ⟨m, behind, hm, rfl⟩ | hne
    · have hno : ¬ NotifierRequest σ (.receive i d) := fun hno => hno
      exact h.prints_spoken hσ hm (by dsimp only; decide) rfl hno
    · exact absurd hroute hne
  · cases hc

/-- The call in any step. -/
theorem Traced.prints {s : Exchange ι} (hσ : σ.Lawful) (h : Traced σ s) {e : ExchangeEvent ι}
    (he : Honest σ s e) :
    (∃ c, dumCall σ s e = some c ∧ Prints σ e c) ∨ dumCall σ s e = none ∧
      ¬ NotifierRequest σ e := by
  cases e with
  | track i t => exact Or.inr ⟨rfl, fun hno => hno⟩
  | request i t =>
    obtain ⟨hrequest, _⟩ := isRequest_cmdMsg hσ i t
    have hitem := (List.take_append_drop sizeofMsgCommon
      (cmdMsg msgGetAes (σ.party i).request none (σ.iid i) t)).symm
    exact Or.inl ⟨_, rfl, hrequest.prints (by dsimp only; decide) hitem Iff.rfl⟩
  | notify i dev text t =>
    have hfwd := notification_forwarded (σ := σ) i dev text t
    have hno : ¬ NotifierRequest σ (.notify i dev text t) := fun hno => hno
    have hitem := (List.take_append_drop (maxMsg - aesIvBytes)
      (notifierBuffer dev (σ.iid i) text t)).symm
    have hroute : (ifroute (σ.notification i dev text t)).toNat < 6 := by
      rw [hfwd.route_eq]
      decide
    exact Or.inl ⟨_, rfl, prints_named (printable_notification hσ i dev text t) hfwd.header_le
      hroute (by dsimp only; decide) hitem hno⟩
  | main d => exact prints_main hσ h he
  | thread d cliaddr around stack => exact Or.inr ⟨rfl, fun hno => hno⟩
  | drain behind sendto => exact Or.inr ⟨rfl, fun hno => hno⟩
  | receive i d =>
    cases hc : dumCall σ s (.receive i d) with
    | none => exact Or.inr ⟨rfl, fun hno => hno⟩
    | some c => exact Or.inl ⟨c, rfl, prints_receive hσ h he hc⟩

end Prints

/-! ### Every run -/

section Runs

variable {ι : Type} [DecidableEq ι] {σ : Site ι}

theorem traced_step (hσ : σ.Lawful) {s : Exchange ι} {e : ExchangeEvent ι} (h : Traced σ s)
    (he : Honest σ s e) : ∃ s', exchangeStep σ s e = some s' ∧ Traced σ s' := by
  cases e with
  | track i t => exact traced_track hσ h i t
  | request i t => exact traced_request hσ h i t
  | notify i dev text t => exact traced_notify hσ h he
  | main d => exact traced_main hσ h he
  | thread d cliaddr around stack => exact traced_thread hσ h he around stack
  | drain behind sendto => exact traced_drain hσ h behind sendto
  | receive i d => exact traced_receive hσ h he

/-- A text behind the table of routes that can be printed. -/
def Behind.Readable (b : Behind) : Prop := ∃ name ∈ b.ifr.head?, name.length ≤ 1024

/-- With such a text a step prints and goes on; without any text only a notifier's request does
not. -/
theorem Traced.printedStep_eq {s : Exchange ι} (hσ : σ.Lawful) (h : Traced σ s)
    {e : ExchangeEvent ι} (he : Honest σ s e) (b : Behind) :
    (b.Readable → printedStep σ s (e, b) = exchangeStep σ s e) ∧
      (b.ifr = [] → (printedStep σ s (e, b) = none ↔ NotifierRequest σ e)) := by
  obtain ⟨s', hstep, _⟩ := traced_step hσ h he
  rcases h.prints hσ he with ⟨c, hc, hprints⟩ | ⟨hc, hno⟩
  · have hrun : ∀ n, c.print b = some n → printedStep σ s (e, b) = exchangeStep σ s e := by
      intro n hn
      simp only [printedStep, hc, hn, Option.bind_some]
    rcases hprints.route with ⟨hreq, hroute⟩ | ⟨hreq, hlt⟩
    · obtain ⟨hshort, hnone⟩ := hprints.fits.print_behind hroute b
      constructor
      · rintro ⟨name, hname, hle⟩
        obtain ⟨n, hn⟩ := Option.isSome_iff_exists.mp (hshort name hname hle)
        exact hrun n hn
      · intro hempty
        simp only [printedStep, hc, hnone hempty, Option.bind_none, hreq]
    · obtain ⟨n, hn⟩ := Option.isSome_iff_exists.mp (hprints.fits.print_named hlt b)
      exact ⟨fun _ => hrun n hn, fun _ => by simp [hrun n hn, hstep, hreq]⟩
  · have hrun : printedStep σ s (e, b) = exchangeStep σ s e := by
      simp only [printedStep, hc]
    exact ⟨fun _ => hrun, fun _ => by simp [hrun, hstep, hno]⟩

theorem exchangeStep_of_printed {s s' : Exchange ι} {x : ExchangeEvent ι × Behind}
    (h : printedStep σ s x = some s') : exchangeStep σ s x.1 = some s' := by
  rw [printedStep] at h
  split at h
  · exact h
  · obtain ⟨_, _, h⟩ := Option.bind_eq_some_iff.mp h
    exact h

/-- The steps are honest, whatever they print. -/
def HonestPrinted (σ : Site ι) (s : Exchange ι) (x : ExchangeEvent ι × Behind) : Prop :=
  Honest σ s x.1

theorem traced_printed (hσ : σ.Lawful) {s s' : Exchange ι} {x : ExchangeEvent ι × Behind}
    (h : Traced σ s) (hx : HonestPrinted σ s x) (hstep : printedStep σ s x = some s') :
    Traced σ s' := by
  obtain ⟨t, ht, htraced⟩ := traced_step hσ h hx
  cases ht.symm.trans (exchangeStep_of_printed hstep)
  exact htraced

/-- A run is printed where there is a text behind the table. -/
theorem run_printed (hσ : σ.Lawful) {b : Behind} (hb : b.Readable) {s s' : Exchange ι}
    (h : Traced σ s) {es : List (ExchangeEvent ι)}
    (hes : AllSteps (exchangeStep σ) (Honest σ) s es) (hrun : run (exchangeStep σ) s es = some s') :
    AllSteps (printedStep σ) (HonestPrinted σ) s (es.map (·, b)) ∧
      run (printedStep σ) s (es.map (·, b)) = some s' := by
  refine hes.map (P := Traced σ) (·, b) (fun t e t' ht he hstep => ?_) h hrun
  obtain ⟨u, hu, htraced⟩ := traced_step hσ ht he
  cases hu.symm.trans hstep
  exact ⟨htraced, he, by rw [(ht.printedStep_eq hσ he b).1 hb, hstep]⟩

end Runs

/-! ### A recorded exchange -/

/-- A public key known by some encryptions. Any other message gets its length in front. -/
def RsaPub.recorded (size : ℕ) (pairs : List (Bytes × Bytes))
    (h : ∀ x ∈ pairs, x.2.length = size ∧ x.1.length + 11 ≤ size) : RsaPub where
  size := size
  publicEncrypt := fun m =>
    match pairs.find? fun x => x.1 = m with
    | some x => some x.2
    | none =>
      if 0 < m.length ∧ m.length + 11 ≤ size then
        some (UInt8.ofNat m.length :: (m ++ zeros (size - 1 - m.length)))
      else none
  encrypt_length := by
    intro m c hc
    cases hfind : pairs.find? fun x => x.1 = m with
    | some x =>
      simp only [hfind, Option.some.injEq] at hc
      have hm : x.1 = m := by simpa using List.find?_some hfind
      rw [← hc, ← hm]
      exact h x (List.mem_of_find?_eq_some hfind)
    | none =>
      simp only [hfind] at hc
      split_ifs at hc with hlen
      rw [← Option.some.inj hc, List.length_cons, List.length_append, zeros_length]
      omega

/-- The private key behind it. -/
def RsaPrv.recorded (size : ℕ) (pairs : List (Bytes × Bytes)) (h : ∀ x ∈ pairs, 0 < x.1.length) :
    RsaPrv where
  size := size
  privateDecrypt := fun c =>
    match pairs.find? fun x => x.2 = c with
    | some x => some x.1
    | none =>
      let n := (byteAt c 0).toNat
      if 0 < n ∧ n < c.length then some ((c.drop 1).take n) else none
  decrypt_pos := by
    intro c m hc
    cases hfind : pairs.find? fun x => x.2 = c with
    | some x =>
      simp only [hfind, Option.some.injEq] at hc
      rw [← hc]
      exact h x (List.mem_of_find?_eq_some hfind)
    | none =>
      simp only [hfind] at hc
      split_ifs at hc with hn
      rw [← Option.some.inj hc, List.length_take, List.length_drop]
      omega

section Recorded

variable {size : ℕ} {pairs : List (Bytes × Bytes)}
  (h : ∀ x ∈ pairs, x.2.length = size ∧ x.1.length + 11 ≤ size) (h' : ∀ x ∈ pairs, 0 < x.1.length)

theorem rsaEnc_recorded {m : Bytes} (hpos : 0 < m.length) (hle : m.length + 11 ≤ size) :
    (rsaEnc (RsaPub.recorded size pairs h) m).isSome := by
  have hsize : ¬ (RsaPub.recorded size pairs h).size < 1 := by
    change ¬ size < 1
    omega
  rw [rsaEnc, if_neg hsize]
  simp only [RsaPub.recorded]
  cases pairs.find? fun x => x.1 = m with
  | some x => rfl
  | none =>
    rw [if_pos ⟨hpos, hle⟩]
    rfl

/-- The recorded blocks differ, and none of them starts as a stand-in does. -/
theorem rsaDec_recorded (hfit : size ≤ 256) (hnodup : (pairs.map Prod.snd).Nodup)
    (hhead : ∀ x ∈ pairs, size < (byteAt x.2 0).toNat + 11) {m c : Bytes}
    (henc : rsaEnc (RsaPub.recorded size pairs h) m = some c) :
    rsaDec (RsaPrv.recorded size pairs h') c = some m := by
  rw [rsaEnc] at henc
  split_ifs at henc with hsize
  have hprv : ¬ (RsaPrv.recorded size pairs h').size < 1 := hsize
  rw [rsaDec, if_neg hprv]
  simp only [RsaPub.recorded] at henc
  simp only [RsaPrv.recorded]
  cases hfind : pairs.find? fun x => x.1 = m with
  | some x =>
    simp only [hfind, Option.some.injEq] at henc
    have hx := List.mem_of_find?_eq_some hfind
    have hm : x.1 = m := by simpa using List.find?_some hfind
    obtain ⟨y, hy⟩ : ∃ y, pairs.find? (fun x => x.2 = c) = some y := by
      rw [← Option.isSome_iff_exists, List.find?_isSome]
      exact ⟨x, hx, by simpa using henc⟩
    have hyc : y.2 = c := by simpa using List.find?_some hy
    have hxy : y = x := List.inj_on_of_nodup_map hnodup (List.mem_of_find?_eq_some hy) hx
      (hyc.trans henc.symm)
    rw [hy, hxy, ← hm]
  | none =>
    simp only [hfind] at henc
    split_ifs at henc with hlen
    have hn : (UInt8.ofNat m.length).toNat = m.length := by
      rw [UInt8.toNat_ofNat']
      omega
    have hfirst : byteAt c 0 = UInt8.ofNat m.length := by
      rw [← Option.some.inj henc]
      rfl
    have hnone : pairs.find? (fun x => x.2 = c) = none := by
      rw [List.find?_eq_none]
      intro x hx hxc
      have hxc : x.2 = c := by simpa using hxc
      have hbig := hhead x hx
      rw [hxc, hfirst, hn] at hbig
      omega
    have hlt : m.length < c.length := by
      rw [← Option.some.inj henc, List.length_cons, List.length_append]
      omega
    simp only [hnone, hfirst, hn, if_pos (And.intro hlen.1 hlt)]
    rw [← Option.some.inj henc, List.drop_succ_cons, List.drop_zero, List.take_left' rfl]

end Recorded

/-- The tracking message of the device `d1`. -/
def trackBytes : Bytes := header msgTra gNtfCli [100, 49] []

/-- One encryption of it under a key of 1024 bits. -/
def trackCipher : Bytes :=
  [158, 137, 196, 221, 199, 181, 183, 2, 238, 62, 110, 9, 176, 151, 252, 130, 252, 68, 34, 145,
   218, 4, 42, 36, 21, 204, 228, 50, 230, 252, 81, 207, 131, 88, 173, 53, 58, 18, 103, 34, 75, 34,
   216, 207, 54, 78, 4, 228, 197, 239, 170, 147, 211, 190, 241, 36, 85, 197, 17, 80, 218, 88, 137,
   201, 238, 86, 72, 218, 26, 98, 56, 79, 188, 119, 81, 66, 118, 252, 184, 112, 10, 25, 63, 54,
   18, 27, 124, 24, 243, 20, 93, 176, 197, 24, 7, 158, 203, 240, 8, 60, 37, 164, 22, 14, 33, 255,
   224, 38, 162, 199, 146, 142, 95, 116, 189, 50, 187, 155, 78, 188, 168, 8, 89, 118, 231, 34,
   114, 133]

/-- One of `requestBytes` under the same key. -/
def requestCipher : Bytes :=
  [148, 183, 194, 175, 42, 211, 250, 152, 86, 167, 217, 10, 17, 103, 96, 115, 100, 84, 16, 168,
   245, 119, 5, 83, 197, 118, 61, 213, 58, 147, 40, 178, 184, 186, 233, 143, 239, 116, 83, 101,
   157, 215, 202, 72, 184, 77, 3, 60, 189, 208, 182, 211, 126, 167, 108, 148, 165, 150, 96, 78,
   127, 230, 84, 183, 18, 31, 195, 109, 202, 65, 132, 242, 159, 14, 181, 12, 57, 185, 249, 4, 231,
   243, 195, 73, 80, 177, 137, 252, 28, 10, 171, 43, 49, 1, 215, 143, 140, 195, 194, 177, 18, 221,
   191, 43, 198, 179, 48, 131, 187, 163, 116, 245, 61, 212, 77, 169, 56, 93, 192, 40, 239, 136,
   160, 14, 128, 23, 220, 248]

/-- What is recorded of the key of the server and of that of the device. -/
def srvPairs : List (Bytes × Bytes) := [(trackBytes, trackCipher), (requestBytes, requestCipher)]

def cliPairs : List (Bytes × Bytes) := [(replyBytes, replyCipher)]

theorem srvPairs_lengths : ∀ x ∈ srvPairs, x.2.length = 128 ∧ x.1.length + 11 ≤ 128 := by
  decide +kernel

theorem cliPairs_lengths : ∀ x ∈ cliPairs, x.2.length = 160 ∧ x.1.length + 11 ≤ 160 := by
  decide +kernel

theorem srvPairs_pos : ∀ x ∈ srvPairs, 0 < x.1.length := by decide +kernel

theorem cliPairs_pos : ∀ x ∈ cliPairs, 0 < x.1.length := by decide +kernel

/-- The server, the device `d1` and the notifier `n1`. -/
def sampleSite : Site Bool where
  party := fun i => if i then .client else .notifier
  iid := fun i => field lenDevid (if i then [100, 49] else [110, 49])
  addr := fun i => if i then ⟨2, 7000, 1⟩ else ⟨2, 7001, 2⟩
  gcm := sampleGcm
  srvPub := RsaPub.recorded 128 srvPairs srvPairs_lengths
  srvPrv := RsaPrv.recorded 128 srvPairs srvPairs_pos
  cliPub := fun _ => RsaPub.recorded 160 cliPairs cliPairs_lengths
  cliPrv := fun _ => RsaPrv.recorded 160 cliPairs cliPairs_pos

theorem sampleSite_lawful : sampleSite.Lawful where
  gcm := sampleGcm_lawful
  srv_undo := fun _ _ => rsaDec_recorded srvPairs_lengths srvPairs_pos (by decide)
    (by decide +kernel) (by decide +kernel)
  cli_undo := fun _ _ _ => rsaDec_recorded cliPairs_lengths cliPairs_pos (by decide)
    (by decide +kernel) (by decide +kernel)
  cli_encrypts := fun _ _ hpos hle => rsaEnc_recorded cliPairs_lengths hpos
    (Nat.add_le_add_right hle 11 |>.trans (by decide))
  cli_size := fun _ => show 160 ≤ maxMsg by decide
  readable := by decide
  terminated := by decide
  addr_ne := by decide
  addr_iid := by decide

/-- The registrations of both. -/
def sampleRegs : List TableOp :=
  [.reg (header msgReg gNtfCli [100, 49] []) 100 none none,
    .reg (header msgReg gNtfCli [110, 49] []) 100 none none]

/-- The device is tracked, asks for the key and receives it. -/
def sampleEvents : List (ExchangeEvent Bool) :=
  [.track true ⟨0, 0⟩,
    .thread (trackCipher ++ [encryptSrvPub]) ⟨2, 7000, 1⟩ (fun _ => 0) [],
    .request true ⟨0, 0⟩,
    .main (requestCipher ++ [encryptSrvPub]),
    .drain (fun _ => []) (fun _ => 161),
    .receive true (replyCipher ++ [encryptCliPub])]

theorem sampleEvents_honest : AllSteps (exchangeStep sampleSite) (Honest sampleSite)
    (exchangeStart Bool sampleRegs) sampleEvents := by
  have hthread : (run (exchangeStep sampleSite) (exchangeStart Bool sampleRegs)
      (sampleEvents.take 1)).map Exchange.toThread =
        some [(trackCipher ++ [encryptSrvPub], ⟨2, 7000, 1⟩)] := by decide +kernel
  have hmain : (run (exchangeStep sampleSite) (exchangeStart Bool sampleRegs)
      (sampleEvents.take 3)).map Exchange.toMain =
        some [requestCipher ++ [encryptSrvPub]] := by decide +kernel
  have hpeer : (run (exchangeStep sampleSite) (exchangeStart Bool sampleRegs)
      (sampleEvents.take 5)).map Exchange.toPeer =
        some [(replyCipher ++ [encryptCliPub], ⟨2, 7000, 1⟩)] := by decide +kernel
  simp only [sampleEvents, List.take_succ_cons, List.take_zero] at hthread hmain hpeer
  refine ⟨trivial, fun s₁ h₁ => ⟨?_, fun s₂ h₂ => ⟨trivial, fun s₃ h₃ => ⟨?_, fun s₄ h₄ =>
    ⟨trivial, fun s₅ h₅ => ⟨⟨?_, ?_⟩, fun _ _ => trivial⟩⟩⟩⟩⟩⟩
  · simp only [run_cons, run_nil, h₁, Option.bind_some, Option.map_some] at hthread
    rw [Honest, Option.some.inj hthread]
    exact List.mem_singleton_self _
  · simp only [run_cons, run_nil, h₁, h₂, h₃, Option.bind_some, Option.map_some] at hmain
    rw [Honest, Option.some.inj hmain]
    exact List.mem_singleton_self _
  · simp only [run_cons, run_nil, h₁, h₂, h₃, h₄, h₅, Option.bind_some, Option.map_some] at hpeer
    rw [Option.some.inj hpeer]
    exact List.mem_singleton_self _
  · exact fun _ => unopened_reply _ _

/-- The table `text` stands behind `ifr`. -/
def sampleBehind : Behind := ⟨typeText, []⟩

theorem sampleBehind_readable : sampleBehind.Readable := ⟨"Register", rfl, by decide⟩

example : (run (exchangeStep sampleSite) (exchangeStart Bool sampleRegs) sampleEvents).map
    (fun s => (s.peer true).gotAes) = some true := by decide +kernel

end MemoryLeak.Notify
