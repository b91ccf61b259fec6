import MemoryLeak.Notify.Table
import MemoryLeak.Notify.TwoRuns

/-!
# The receive loop of the sending thread

`sending_routine_thread` receives without blocking, decodes as `main` does and records the
sender's address of a tracking message. The length that `recvfrom` returned is compared with a
`size_t`, so that a failed receive is not noticed. A datagram that cannot be decrypted is
followed through this loop and through that of `main`.
-/
namespace MemoryLeak.Notify
open MemoryLeak.CBytes

/-- An `int` converted for the comparison with a `size_t`. -/
def sizeT (n : Int32) : ℕ := (n.toInt % 2 ^ 64).toNat

/-- `buffer`, with what the memory around it holds. -/
structure RecvArea where
  buffer : Bytes
  around : ℤ → UInt8
  buffer_length : buffer.length = maxMsg + 1

/-- `i` is an index of the buffer. -/
def InBuffer (i : ℤ) : Prop := 0 ≤ i ∧ i < maxMsg + 1

instance (i : ℤ) : Decidable (InBuffer i) := inferInstanceAs (Decidable (_ ∧ _))

/-- `buffer[i]`. -/
def RecvArea.charAt (a : RecvArea) (i : ℤ) : UInt8 :=
  if InBuffer i then byteAt a.buffer i.toNat else a.around i

/-- What the calls made for one receive return. The last one is `rsa_dec` of a negative
length. -/
structure ThreadCalls extends RecvCalls where
  rsaDecBelow : ℤ → Option Bytes

/-- `rsa_dec` of the first `lenin` bytes. -/
def ThreadCalls.rsaDec (w : ThreadCalls) (prv : RsaPrv) (buffer : Bytes) (lenin : ℤ) :
    Option Bytes :=
  if 0 ≤ lenin then Notify.rsaDec prv (buffer.take lenin.toNat) else w.rsaDecBelow lenin

/-- The decoding by `buffer[n-1]`. A negative length is below the least one that
`msg_aes_dec` takes, as 0 is. -/
def threadDecode (w : ThreadCalls) (a : RecvArea) (bufout : Bytes) (n : Int32) : Decoded :=
  let enc := a.charAt (n.toInt - 1)
  if enc = encryptSrvPub then
    match w.getSrvPrv with
    | none => .ignored bufout
    | some prv =>
      match w.rsaDec prv a.buffer (n.toInt - 1) with
      | none => .message false a.buffer n.toInt.toNat
      | some out =>
        if out.length ≤ maxMsg + 1 then
          .message false (memcpy (zeros (maxMsg + 1)) 0 out) out.length
        else .fault
  else if enc = encryptAes then
    match msgAesDec w.gcm aesKey ivBytes a.buffer bufout n.toInt.toNat (maxMsg + 1) with
    | (bufout, none) => .ignored bufout
    | (bufout, some n) => .message true bufout n
  else .message false a.buffer n.toInt.toNat

/-- What one turn does: the index of `buffer` it reads, whether it comes to the decoding, the
message it gives to `hl_track_msg`, and what it leaves. -/
structure SendingTurn where
  read : Option ℤ
  decoded : Bool
  tracked : Option Bytes
  bufout : Bytes
  table : Table

/-- One turn of the loop, `recvfrom` having returned `n`. Behind the buffers the memory holds
`stack`. -/
def sendingTurn (w : ThreadCalls) (T : Table) (a : RecvArea) (bufout stack : Bytes)
    (cliaddr : SockAddrIn) (n : Int32) : Option SendingTurn :=
  if sizeT n < sizeofMsgCommon then some ⟨none, false, none, bufout, T⟩
  else
    match threadDecode w a bufout n with
    | .fault => none
    | .ignored b => some ⟨some (n.toInt - 1), true, none, b, T⟩
    | .message inBufout p _ =>
      let b := if inBufout then p else bufout
      if msgType p = msgTra then
        some ⟨some (n.toInt - 1), true, some p, b, (hlTrackMsg T (p ++ stack) cliaddr).2⟩
      else some ⟨some (n.toInt - 1), true, none, b, T⟩

/-! ### Failed receives -/

/-- Nothing outside the buffer is read, nothing decoded and nothing tracked. -/
structure SendingTurn.Untouched (r : SendingTurn) (T : Table) : Prop where
  inside : ∀ i ∈ r.read, InBuffer i
  decoded : r.decoded = false
  tracked : r.tracked = none
  table : r.table = T

theorem sizeT_of_nonneg {n : Int32} (h : 0 ≤ n.toInt) : sizeT n = n.toInt.toNat := by
  have hlt := n.toInt_lt
  rw [sizeT, Int.emod_eq_of_lt h (by omega)]

/-- A negative length is taken for one of nearly `2 ^ 64` bytes. -/
theorem sizeT_of_neg {n : Int32} (h : n.toInt < 0) : sizeofMsgCommon ≤ sizeT n := by
  have hle := n.le_toInt
  have hmod : n.toInt % 2 ^ 64 = n.toInt + 2 ^ 64 := by omega
  rw [sizeT, hmod]
  simp only [sizeofMsgCommon]
  omega

/-- Every turn past the check reads the byte in front of the length. -/
theorem sendingTurn_read {w : ThreadCalls} {T : Table} {a : RecvArea} {bufout stack : Bytes}
    {cliaddr : SockAddrIn} {n : Int32} {r : SendingTurn} (hn : sizeofMsgCommon ≤ sizeT n)
    (h : sendingTurn w T a bufout stack cliaddr n = some r) : r.read = some (n.toInt - 1) := by
  rw [sendingTurn, if_neg (by omega)] at h
  cases hdec : threadDecode w a bufout n with
  | fault =>
    rw [hdec] at h
    cases h
  | ignored b =>
    rw [hdec] at h
    cases h
    rfl
  | message inBufout p m =>
    simp only [hdec] at h
    split_ifs at h
    all_goals
      cases h
      rfl

/-- A receive of fewer bytes than a header leaves everything as it was exactly when its
length is not negative. -/
theorem failed_receive_iff (w : ThreadCalls) (T : Table) (a : RecvArea) (bufout stack : Bytes)
    (cliaddr : SockAddrIn) (n : Int32) :
    (n.toInt < sizeofMsgCommon →
      ∃ r, sendingTurn w T a bufout stack cliaddr n = some r ∧ r.Untouched T) ↔ 0 ≤ n.toInt := by
  constructor
  · intro h
    by_contra hneg
    have hlt : n.toInt < 0 := by omega
    obtain ⟨r, hturn, huntouched⟩ := h (by simp only [sizeofMsgCommon]; omega)
    have hread := sendingTurn_read (sizeT_of_neg hlt) hturn
    obtain ⟨hlow, _⟩ := huntouched.inside _ hread
    omega
  · intro h hshort
    refine ⟨⟨none, false, none, bufout, T⟩, ?_, ?_⟩
    · rw [sendingTurn, if_pos]
      rw [sizeT_of_nonneg h]
      omega
    · exact ⟨by simp, rfl, rfl, rfl⟩

/-- The cleared buffer. -/
def clearedArea : RecvArea := ⟨zeros (maxMsg + 1), fun _ => 0, zeros_length _⟩

/-- `recvfrom` returns -1: the byte two in front of the buffer is read. -/
theorem failed_receive_reads_outside :
    ¬ ∀ (w : ThreadCalls) (T : Table) (a : RecvArea) (bufout stack : Bytes)
      (cliaddr : SockAddrIn) (n : Int32), n.toInt < sizeofMsgCommon →
        ∃ r, sendingTurn w T a bufout stack cliaddr n = some r ∧ r.Untouched T := by
  intro h
  obtain ⟨r, hturn, huntouched⟩ := h ⟨⟨none, Gcm.failing⟩, fun _ => none⟩ emptyTable clearedArea
    (zeros (maxMsg + 1)) [] noAddr (-1) (by decide)
  have hread : r.read = some (-2) := sendingTurn_read (by decide) hturn
  exact absurd (huntouched.inside _ hread) (by decide)

/-! ### Datagrams that cannot be decrypted -/

/-- What `msg_aes_dec` recovers from a frame of `lenin` bytes. -/
def aesText (G : Gcm) (key iv inp : Bytes) (lenin : ℕ) : Option Bytes :=
  if maxMsg + 1 < lenin then none
  else if lenin < aesIvBytes + 1 then none
  else
    let tag := (inp.drop (lenin - 1 - aesIvBytes)).take aesIvBytes
    let r := G.decrypt key iv (inp.take (lenin - 1 - aesIvBytes)) tag
    if r.2 then some r.1 else none

theorem msgAesDec_aesText (G : Gcm) (key iv inp buf : Bytes) (lenin : ℕ) :
    match aesText G key iv inp lenin with
    | none => ∃ b, msgAesDec G key iv inp buf lenin (maxMsg + 1) = (b, none)
    | some text =>
      msgAesDec G key iv inp buf lenin (maxMsg + 1) = (memcpy buf 0 text, some text.length) := by
  unfold aesText msgAesDec
  by_cases hlong : maxMsg + 1 < lenin
  · simp only [if_pos hlong]
    exact ⟨buf, rfl⟩
  · by_cases hshort : lenin < aesIvBytes + 1
    · simp only [if_neg hlong, if_pos hshort]
      exact ⟨buf, rfl⟩
    · have hlim : ¬ maxMsg + 1 < lenin - 1 - aesIvBytes := fun h => hlong (by omega)
      simp only [if_neg hlong, if_neg hshort, if_neg hlim]
      generalize G.decrypt key iv (inp.take (lenin - 1 - aesIvBytes))
        ((inp.drop (lenin - 1 - aesIvBytes)).take aesIvBytes) = r
      obtain ⟨text, ok⟩ := r
      cases ok with
      | false => exact ⟨_, rfl⟩
      | true => rfl

theorem aesText_length {G : Gcm} {key iv inp text : Bytes} {lenin : ℕ} (hinp : lenin ≤ inp.length)
    (h : aesText G key iv inp lenin = some text) : text.length + aesIvBytes + 1 = lenin := by
  have hspec := msgAesDec_aesText G key iv inp (zeros (maxMsg + 1)) lenin
  simp only [h] at hspec
  have hlen := @msgAesDec_length G key iv inp (zeros (maxMsg + 1)) lenin (maxMsg + 1) (by simp) hinp
  exact hlen.2 text.length (by rw [hspec])

section Decoding

variable (w : RecvCalls) (buffer bufout : Bytes) (n : ℕ)

/-- The last byte says encrypted, and the decryption fails or yields less than a header. -/
def Undecryptable : Prop :=
  byteAt buffer (n - 1) = encryptSrvPub ∧
      (∀ prv ∈ w.getSrvPrv, ∀ out ∈ rsaDec prv (buffer.take (n - 1)),
        out.length < sizeofMsgCommon) ∨
    byteAt buffer (n - 1) = encryptAes ∧
      ∀ text ∈ aesText w.gcm aesKey ivBytes buffer n, text.length < sizeofMsgCommon

/-- What is taken for the message of such a datagram all the same: the datagram itself when
`rsa_dec` fails, or the text that is too short. -/
def passedOn : Option Bytes :=
  if byteAt buffer (n - 1) = encryptSrvPub then
    w.getSrvPrv.map fun prv =>
      match rsaDec prv (buffer.take (n - 1)) with
      | none => buffer
      | some out => memcpy (zeros (maxMsg + 1)) 0 out
  else (aesText w.gcm aesKey ivBytes buffer n).map (memcpy bufout 0)

variable {w buffer bufout n}

/-- An undecryptable datagram is dropped, or goes on as a message. -/
theorem decode_undecryptable (h : Undecryptable w buffer n) :
    match passedOn w buffer bufout n with
    | none => ∃ b, decode w buffer bufout n = .ignored b
    | some p => ∃ inBufout m, decode w buffer bufout n = .message inBufout p m := by
  have hne : encryptAes ≠ encryptSrvPub := by decide
  rcases h with ⟨henc, hshort⟩ | ⟨henc, hshort⟩
  · rw [passedOn, if_pos henc]
    simp only [decode, if_pos henc]
    cases hprv : w.getSrvPrv with
    | none => exact ⟨bufout, rfl⟩
    | some prv =>
      simp only [Option.map_some]
      cases hdec : rsaDec prv (buffer.take (n - 1)) with
      | none => exact ⟨false, n, rfl⟩
      | some out =>
        have hfit : out.length ≤ maxMsg + 1 := by
          have hless := hshort prv hprv out hdec
          simp only [sizeofMsgCommon, maxMsg] at hless ⊢
          omega
        exact ⟨false, out.length, if_pos hfit⟩
  · rw [passedOn, if_neg (henc ▸ hne)]
    simp only [decode, if_neg (henc ▸ hne), if_pos henc]
    have hspec := msgAesDec_aesText w.gcm aesKey ivBytes buffer bufout n
    cases htext : aesText w.gcm aesKey ivBytes buffer n with
    | none =>
      simp only [htext] at hspec
      obtain ⟨b, hb⟩ := hspec
      exact ⟨b, by rw [hb]⟩
    | some text =>
      simp only [htext] at hspec
      exact ⟨true, text.length, by rw [hspec]⟩

end Decoding

/-! ### The two loops on such a datagram -/

/-- The loop of `main` queues the message `p`, or leaves the buffer over it. -/
def Routes (p : Bytes) : Prop :=
  msgType p = msgNtf ∧ (ifroute p = gNtfCli ∨ ifroute p = gCliNtf) ∨
    ifroute p = gCliSrv ∨ ifroute p = gNtfSrv

instance (p : Bytes) : Decidable (Routes p) := inferInstanceAs (Decidable (_ ∨ _))

theorem routeMsg_unrouted_iff {p : Bytes} {n : ℕ} (hp : p.length = maxMsg + 1)
    (hn : n ≤ maxMsg + 1) : (routeMsg p n).map Prod.snd = some none ↔ ¬ Routes p := by
  have hfwd : ∀ r, r = gCliSrv ∨ r = gNtfSrv → ¬ (r = gNtfCli ∨ r = gCliNtf) := by
    rintro r (rfl | rfl)
    · decide
    · decide
  have hreply : ∀ route, (replyKey p n route).map Prod.snd ≠ some none := by
    intro route
    rcases replyKey_cases (n := n) route hp with ⟨_, q, hq, _⟩ | ⟨_, hnone⟩
    · simp [hq]
    · simp [hnone]
  rcases routeMsg_cases hp hn with ⟨q, hr, _, _, htype, hroute⟩ | ⟨hr, hcli, hntf⟩ | ⟨hroute, hr⟩ |
    ⟨hroute, hr⟩
  · rw [hr]
    exact iff_of_false (by simp) (not_not_intro (Or.inl ⟨htype, hroute⟩))
  · rw [hr]
    refine iff_of_true rfl ?_
    rintro (⟨htype, hroute⟩ | hroute | hroute)
    · rw [routeMsg, if_pos hroute, if_pos htype, addToImdFwd, dif_pos (by omega)] at hr
      simp at hr
    · exact hcli hroute
    · exact hntf hroute
  · rw [hr]
    exact iff_of_false (hreply _) (not_not_intro (Or.inr (Or.inl hroute)))
  · rw [hr]
    exact iff_of_false (hreply _) (not_not_intro (Or.inr (Or.inr hroute)))

/-- `hl_track_msg` changes the table: an empty chain is given the count 0, or the item found
another address. -/
def Tracks (T : Table) (msg : Bytes) (cliaddr : SockAddrIn) : Prop :=
  let hi := T (hashId (devId msg))
  hi.n ≠ 0 ∧ (hi.group = [] ∨
    ∃ j ∈ chainWalk (devId msg) hi.n 0 hi.group, ∃ it ∈ hi.group[j]?, it.ipv4 ≠ cliaddr)

theorem modify_eq_self_iff {α : Type} (l : List α) (j : ℕ) (f : α → α) :
    l.modify j f = l ↔ ∀ x ∈ l[j]?, f x = x := by
  constructor
  · intro h x hx
    have hget := congrArg (fun l => l[j]?) h
    rw [List.getElem?_modify_eq, hx, Option.map_eq_map, Option.map_some, Option.some_inj] at hget
    exact hget
  · intro h
    apply List.ext_getElem?
    intro i
    rw [List.getElem?_modify]
    by_cases hij : j = i
    · subst hij
      cases hx : l[j]? with
      | none => simp
      | some x => simp [h x hx]
    · simp [hij]

theorem hlTrackMsg_table_iff (T : Table) (msg : Bytes) (cliaddr : SockAddrIn) :
    (hlTrackMsg T msg cliaddr).2 = T ↔ ¬ Tracks T msg cliaddr := by
  unfold hlTrackMsg Tracks
  dsimp only
  generalize hhi : T (hashId (devId msg)) = hi
  by_cases hn : hi.n = 0
  · simp [hn]
  · by_cases hgroup : hi.group = []
    · rw [if_pos hn, if_pos hgroup, Function.update_eq_self_iff]
      refine iff_of_false ?_ (not_not_intro ⟨hn, Or.inl hgroup⟩)
      intro heq
      rw [hhi] at heq
      exact hn (congrArg HashList.n heq).symm
    · rw [if_pos hn, if_neg hgroup]
      cases hwalk : chainWalk (devId msg) hi.n 0 hi.group with
      | none => simp [hgroup]
      | some j =>
        dsimp only
        rw [Function.update_eq_self_iff, hhi]
        have hsame : (⟨hi.n, hi.group.modify j (HashItem.setIpv4 cliaddr)⟩ : HashList) = hi ↔
            hi.group.modify j (HashItem.setIpv4 cliaddr) = hi.group := by
          constructor
          · exact fun h => congrArg HashList.group h
          · intro h
            rw [h]
        rw [hsame, modify_eq_self_iff]
        simp only [hgroup, false_or, not_and, not_exists, ne_eq, not_not, Option.mem_def,
          Option.some.injEq]
        constructor
        · intro h _ i hi' it hit
          subst hi'
          have hset := h it hit
          exact (congrArg HashItem.ipv4 hset).symm
        · intro h it hit
          have haddr := h hn j rfl it hit
          unfold HashItem.setIpv4
          rw [← haddr]

/-- The loop of `main` stays in its buffers and queues nothing. -/
def MainRejects (w : RecvCalls) (stack bufout d : Bytes) : Prop :=
  ¬ (reaction w stack bufout d).IsFault ∧ (reaction w stack bufout d).queue = none

instance (w : RecvCalls) (stack bufout d : Bytes) : Decidable (MainRejects w stack bufout d) :=
  inferInstanceAs (Decidable (_ ∧ (_ = none)))

/-- What `main` does with the message `p` is to print it. -/
def OnlyPrinted (stack p : Bytes) : Prop :=
  DumFits "server.c" "main" 352 (p ++ stack) ∧ ¬ Routes p

theorem react_message_iff {stack p : Bytes} {n : ℕ} (inBufout : Bool) (hp : p.length = maxMsg + 1)
    (hn : n ≤ maxMsg + 1) :
    (¬ (react stack (.message inBufout p n)).IsFault ∧
      (react stack (.message inBufout p n)).queue = none) ↔ OnlyPrinted stack p := by
  rw [OnlyPrinted, ← dumMsg_isSome_iff, ← routeMsg_unrouted_iff hp hn]
  unfold react
  by_cases hdum : (dumMsg "server.c" "main" 352 (p ++ stack)).isSome
  · simp only [hdum, true_and]
    cases (routeMsg p n).map Prod.snd with
    | none => simp [Reaction.ofRoute, Reaction.IsFault]
    | some q =>
      cases q with
      | none => simp [Reaction.ofRoute, Reaction.IsFault, Reaction.queue]
      | some q => simp [Reaction.ofRoute, Reaction.queue]
  · simp [hdum, Reaction.IsFault]

theorem main_rejects_iff {w : RecvCalls} {d : Bytes} (stack : Bytes)
    (bufout : Vector UInt8 (maxMsg + 1))
    (h : Undecryptable w (recvBuf d) (min d.length (maxMsg + 1))) :
    MainRejects w stack bufout.toList d ↔ (sizeofMsgCommon ≤ d.length →
      ∀ p ∈ passedOn w (recvBuf d) bufout.toList (min d.length (maxMsg + 1)),
        OnlyPrinted stack p) := by
  unfold MainRejects reaction
  by_cases hshort : d.length < sizeofMsgCommon
  · simp only [if_pos (show min d.length (maxMsg + 1) < sizeofMsgCommon by omega)]
    exact iff_of_true ⟨id, rfl⟩ fun hle => absurd hle (by omega)
  · have hlen : sizeofMsgCommon ≤ min d.length (maxMsg + 1) := by
      simp only [sizeofMsgCommon, maxMsg] at hshort ⊢
      omega
    simp only [if_neg (show ¬ min d.length (maxMsg + 1) < sizeofMsgCommon by omega),
      show sizeofMsgCommon ≤ d.length by omega, true_imp_iff]
    have hspec := @decode_undecryptable w (recvBuf d) bufout.toList _ h
    cases hpassed : passedOn w (recvBuf d) bufout.toList (min d.length (maxMsg + 1)) with
    | none =>
      simp only [hpassed] at hspec
      obtain ⟨b, hb⟩ := hspec
      rw [hb]
      exact iff_of_true ⟨id, rfl⟩ (by simp)
    | some p =>
      simp only [hpassed] at hspec
      obtain ⟨inBufout, m, hdec⟩ := hspec
      obtain ⟨hp, _, hm, _⟩ := decode_message (recvBuf_length d) (by simp) hlen
        (Nat.min_le_right _ _) hdec
      rw [hdec, react_message_iff inBufout hp hm]
      simp

/-- The buffer of the thread behind a datagram, of which it takes `MAX_MSG` bytes. -/
def threadBuf (d : Bytes) : Bytes := memcpy (zeros (maxMsg + 1)) 0 (d.take maxMsg)

theorem threadBuf_length (d : Bytes) : (threadBuf d).length = maxMsg + 1 := by
  rw [threadBuf, memcpy_length (by simp), zeros_length]

/-- The turn of the thread for the datagram `d`. -/
def sendingRecv (w : ThreadCalls) (T : Table) (around : ℤ → UInt8) (bufout stack : Bytes)
    (cliaddr : SockAddrIn) (d : Bytes) : Option SendingTurn :=
  sendingTurn w T ⟨threadBuf d, around, threadBuf_length d⟩ bufout stack cliaddr
    (Int32.ofNat (min d.length maxMsg))

/-- With the length of a datagram the thread decodes as `main` does. -/
theorem threadDecode_eq (w : ThreadCalls) (a : RecvArea) (bufout : Bytes) {n : Int32} {k : ℕ}
    (hn : n.toInt = k) (hpos : 1 ≤ k) (hle : k ≤ maxMsg + 1) :
    threadDecode w a bufout n = decode w.toRecvCalls a.buffer bufout k := by
  have hin : InBuffer (n.toInt - 1) := ⟨by omega, by omega⟩
  have hindex : (n.toInt - 1).toNat = k - 1 := by omega
  have hrsa : ∀ prv, w.rsaDec prv a.buffer (n.toInt - 1) =
      rsaDec prv (a.buffer.take (k - 1)) := by
    intro prv
    rw [ThreadCalls.rsaDec, if_pos hin.1, hindex]
  have hnat : n.toInt.toNat = k := by omega
  unfold threadDecode decode
  rw [RecvArea.charAt, if_pos hin, hindex, hnat]
  cases w.getSrvPrv with
  | none => rfl
  | some prv =>
    have hdec := hrsa prv
    dsimp only
    generalize w.rsaDec prv a.buffer (n.toInt - 1) = r at hdec ⊢
    subst hdec
    rfl

theorem ofNat_toInt (d : Bytes) :
    (Int32.ofNat (min d.length maxMsg)).toInt = ((min d.length maxMsg : ℕ) : ℤ) := by
  apply Int32.toInt_ofNat_of_lt
  simp only [maxMsg]
  omega

/-- The thread takes no message for a tracking that changes the table. -/
def ThreadRejects (T : Table) (r : Option SendingTurn) : Prop := ∃ t, r = some t ∧ t.table = T

theorem thread_rejects_iff {w : ThreadCalls} {d : Bytes} (T : Table) (around : ℤ → UInt8)
    (bufout stack : Bytes) (cliaddr : SockAddrIn)
    (h : Undecryptable w.toRecvCalls (threadBuf d) (min d.length maxMsg)) :
    ThreadRejects T (sendingRecv w T around bufout stack cliaddr d) ↔
      (sizeofMsgCommon ≤ d.length →
        ∀ p ∈ passedOn w.toRecvCalls (threadBuf d) bufout (min d.length maxMsg),
          msgType p = msgTra → ¬ Tracks T (p ++ stack) cliaddr) := by
  have hint := ofNat_toInt d
  have hsize : sizeT (Int32.ofNat (min d.length maxMsg)) = min d.length maxMsg := by
    rw [sizeT_of_nonneg (by omega)]
    omega
  unfold ThreadRejects sendingRecv sendingTurn
  rw [hsize]
  by_cases hshort : d.length < sizeofMsgCommon
  · rw [if_pos (by omega)]
    exact iff_of_true ⟨_, rfl, rfl⟩ fun hle => absurd hle (by omega)
  · have hlen : sizeofMsgCommon ≤ min d.length maxMsg := by
      simp only [sizeofMsgCommon, maxMsg] at hshort ⊢
      omega
    have hpos : 1 ≤ min d.length maxMsg := by
      simp only [sizeofMsgCommon] at hlen
      omega
    rw [if_neg (by omega), threadDecode_eq w _ bufout hint hpos (by omega)]
    simp only [show sizeofMsgCommon ≤ d.length by omega, true_imp_iff]
    have hspec := @decode_undecryptable w.toRecvCalls (threadBuf d) bufout _ h
    cases hpassed : passedOn w.toRecvCalls (threadBuf d) bufout (min d.length maxMsg) with
    | none =>
      simp only [hpassed] at hspec
      obtain ⟨b, hb⟩ := hspec
      rw [hb]
      exact iff_of_true ⟨_, rfl, rfl⟩ (by simp)
    | some p =>
      simp only [hpassed] at hspec
      obtain ⟨inBufout, m, hdec⟩ := hspec
      rw [hdec]
      by_cases htype : msgType p = msgTra
      · simp [htype, hlTrackMsg_table_iff]
      · simp [htype]

/-- An undecryptable datagram changes and queues nothing in either loop exactly when what is
passed on of it is only printed by `main`, and is no tracking of a registered device from
another address for the thread. -/
theorem undecryptable_rejected_iff (w : ThreadCalls) (T : Table) (around : ℤ → UInt8)
    (bufout bufout' : Vector UInt8 (maxMsg + 1)) (stack : Bytes) (cliaddr : SockAddrIn)
    (d : Bytes) :
    (Undecryptable w.toRecvCalls (recvBuf d) (min d.length (maxMsg + 1)) →
        MainRejects w.toRecvCalls stack bufout.toList d) ∧
      (Undecryptable w.toRecvCalls (threadBuf d) (min d.length maxMsg) →
        ThreadRejects T (sendingRecv w T around bufout'.toList stack cliaddr d)) ↔
    (Undecryptable w.toRecvCalls (recvBuf d) (min d.length (maxMsg + 1)) →
        sizeofMsgCommon ≤ d.length →
          ∀ p ∈ passedOn w.toRecvCalls (recvBuf d) bufout.toList (min d.length (maxMsg + 1)),
            OnlyPrinted stack p) ∧
      (Undecryptable w.toRecvCalls (threadBuf d) (min d.length maxMsg) →
        sizeofMsgCommon ≤ d.length →
          ∀ p ∈ passedOn w.toRecvCalls (threadBuf d) bufout'.toList (min d.length maxMsg),
            msgType p = msgTra → ¬ Tracks T (p ++ stack) cliaddr) := by
  apply and_congr
  · exact imp_congr_right fun h => main_rejects_iff stack bufout h
  · exact imp_congr_right fun h => thread_rejects_iff T around bufout'.toList stack cliaddr h

/-- A private key under which nothing can be decrypted. -/
def deafPrv : RsaPrv := ⟨256, fun _ => none, by simp⟩

/-- A notification with the trailer of RSA and no encryption. -/
def fakeEncrypted : Bytes := header msgNtf gNtfCli [100, 49] [] ++ [encryptSrvPub]

/-- `rsa_dec` fails and the notification is queued. -/
theorem undecryptable_queued :
    ¬ ∀ (w : ThreadCalls) (T : Table) (around : ℤ → UInt8)
      (bufout bufout' : Vector UInt8 (maxMsg + 1)) (stack : Bytes) (cliaddr : SockAddrIn)
      (d : Bytes),
      (Undecryptable w.toRecvCalls (recvBuf d) (min d.length (maxMsg + 1)) →
          MainRejects w.toRecvCalls stack bufout.toList d) ∧
        (Undecryptable w.toRecvCalls (threadBuf d) (min d.length maxMsg) →
          ThreadRejects T (sendingRecv w T around bufout'.toList stack cliaddr d)) := by
  intro h
  have hboth := h ⟨⟨some deafPrv, Gcm.failing⟩, fun _ => none⟩ emptyTable (fun _ => 0)
    (Vector.replicate 1201 0) (Vector.replicate 1201 0) [] noAddr fakeEncrypted
  have hundec : Undecryptable ⟨some deafPrv, Gcm.failing⟩ (recvBuf fakeEncrypted)
      (min fakeEncrypted.length (maxMsg + 1)) := by
    refine Or.inl ⟨by decide +kernel, ?_⟩
    intro prv hprv out hout
    cases hprv
    cases hout
  have hrejects := hboth.1 hundec
  have hnot : ¬ MainRejects ⟨some deafPrv, Gcm.failing⟩ [] (Vector.replicate 1201 0).toList
      fakeEncrypted := by decide +kernel
  exact hnot hrejects

end MemoryLeak.Notify
