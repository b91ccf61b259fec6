import MemoryLeak.Notify.Secrecy

/-!
# The receive loop over two histories

`buffer` is cleared for each datagram, `bufout` is not: a decrypted message shorter
than an earlier one is followed there by what the earlier one left. What the loop
does with a datagram is compared between two histories of the server.
-/
namespace MemoryLeak.Notify
open MemoryLeak.CBytes MemoryLeak.Runs

/-- What one turn of the loop does with a datagram. -/
inductive Reaction where
  /-- The text decrypted by RSA does not fit `buffer`. -/
  | decodeFault
  /-- `DUM_MSG` leaves its tables or its text buffer. -/
  | dumFault
  /-- The key does not fit behind the message. -/
  | keyFault
  /-- Fewer bytes than a header. -/
  | short
  /-- No private key, or `msg_aes_dec` failed. -/
  | undecoded
  | unrouted
  | queued (q : Queued)

/-- What the switch on the route leads to. -/
def Reaction.ofRoute : Option (Option Queued) → Reaction
  | none => .keyFault
  | some none => .unrouted
  | some (some q) => .queued q

/-- `DUM_MSG` and the switch on the route, for what was decoded. Behind the buffer the
memory holds `stack`. -/
def react (stack : Bytes) : Decoded → Reaction
  | .fault => .decodeFault
  | .ignored _ => .undecoded
  | .message _ p n =>
    if (dumMsg "server.c" "main" 352 (p ++ stack)).isSome then
      .ofRoute ((routeMsg p n).map Prod.snd)
    else .dumFault

/-- The turn for the datagram `d`. -/
def reaction (w : RecvCalls) (stack bufout d : Bytes) : Reaction :=
  let n := min d.length (maxMsg + 1)
  if n < sizeofMsgCommon then .short else react stack (decode w (recvBuf d) bufout n)

namespace Reaction

def IsFault : Reaction → Prop
  | decodeFault | dumFault | keyFault => True
  | _ => False

instance (r : Reaction) : Decidable r.IsFault :=
  match r with
  | decodeFault | dumFault | keyFault => isTrue trivial
  | short | undecoded | unrouted | queued _ => isFalse id

/-- What the turn puts on the forward queue. -/
def queue : Reaction → Option Queued
  | queued q => some q
  | _ => none

end Reaction

/-- The server with `DUM_MSG` in its loop. -/
def loopStep (stack : Bytes) (s : ServerState) : ServerEvent → Option ServerState
  | .recv d w => if (reaction w stack s.bufout d).IsFault then none else serverStep s (.recv d w)
  | .drain T w behind => serverStep s (.drain T w behind)

/-- The turn without `DUM_MSG` queues the same. -/
theorem mainTurn_reaction {w : RecvCalls} {stack bufout d : Bytes}
    (h : ¬ (reaction w stack bufout d).IsFault) :
    ∃ b, mainTurn w bufout d = some (b, (reaction w stack bufout d).queue) := by
  simp only [reaction, mainTurn] at h ⊢
  by_cases hn : min d.length (maxMsg + 1) < sizeofMsgCommon
  · simp only [if_pos hn]
    split <;> exact ⟨bufout, rfl⟩
  · have hpos : ¬ min d.length (maxMsg + 1) < 1 := by
      simp only [sizeofMsgCommon] at hn
      omega
    simp only [if_neg hn, if_neg hpos] at h ⊢
    generalize decode w (recvBuf d) bufout (min d.length (maxMsg + 1)) = x at h ⊢
    cases x with
    | fault => simp [react, Reaction.IsFault] at h
    | ignored b => exact ⟨b, rfl⟩
    | message inBufout p n =>
      simp only [react] at h ⊢
      by_cases hdum : (dumMsg "server.c" "main" 352 (p ++ stack)).isSome
      · simp only [if_pos hdum] at h ⊢
        cases hroute : routeMsg p n with
        | none => simp [hroute, Reaction.ofRoute, Reaction.IsFault] at h
        | some r =>
          obtain ⟨p', o⟩ := r
          cases o with
          | none => exact ⟨_, rfl⟩
          | some q => exact ⟨_, rfl⟩
      · simp [hdum, Reaction.IsFault] at h

/-- The text that `DUM_MSG` makes of a decoded message fits its buffer, and the type and
the route index its tables. -/
def Decoded.TextFits (stack : Bytes) : Decoded → Prop
  | .message _ p _ => DumFits "server.c" "main" 352 (p ++ stack)
  | _ => True

def TextFits (w : RecvCalls) (stack bufout d : Bytes) : Prop :=
  sizeofMsgCommon ≤ min d.length (maxMsg + 1) →
    (decode w (recvBuf d) bufout (min d.length (maxMsg + 1))).TextFits stack

theorem react_eq_dumFault_iff (stack : Bytes) (x : Decoded) :
    react stack x = .dumFault ↔ ¬ x.TextFits stack := by
  cases x with
  | fault => simp [react, Decoded.TextFits]
  | ignored b => simp [react, Decoded.TextFits]
  | message inBufout p n =>
    simp only [react, Decoded.TextFits, ← dumMsg_isSome_iff]
    by_cases hdum : (dumMsg "server.c" "main" 352 (p ++ stack)).isSome
    · rw [if_pos hdum]
      refine iff_of_false ?_ (not_not_intro hdum)
      unfold Reaction.ofRoute
      split <;> simp
    · simp [hdum]

theorem loopStep_serverStep {stack : Bytes} {s s' : ServerState} {e : ServerEvent}
    (h : loopStep stack s e = some s') : serverStep s e = some s' := by
  cases e with
  | recv d w =>
    simp only [loopStep] at h
    split_ifs at h
    exact h
  | drain T w behind => exact h

/-- A run of the loop is one of the server without `DUM_MSG`. -/
theorem run_loopStep {stack : Bytes} {s s' : ServerState} {es : List ServerEvent}
    (h : run (loopStep stack) s es = some s') : run serverStep s es = some s' := by
  induction es generalizing s with
  | nil => exact h
  | cons e es ih =>
    rw [run_cons, Option.bind_eq_some_iff] at h ⊢
    obtain ⟨t, ht, hrest⟩ := h
    exact ⟨t, loopStep_serverStep ht, ih hrest⟩

theorem loop_bufout_length {stack : Bytes} {b : Vector UInt8 (maxMsg + 1)} {es : List ServerEvent}
    {s : ServerState} (h : run (loopStep stack) (ServerState.init b) es = some s) :
    s.bufout.length = maxMsg + 1 :=
  (server_inv b es s (run_loopStep h)).bufout

/-! ### Equal up to the length decoded -/

/-- Two decodings agree on what they decoded, whatever stands behind it. -/
inductive Decoded.Agree : Decoded → Decoded → Prop
  | fault : Agree .fault .fault
  | ignored (b b' : Bytes) : Agree (.ignored b) (.ignored b')
  | same (i : Bool) (p : Bytes) (n : ℕ) : Agree (.message i p n) (.message i p n)
  | upTo (i : Bool) {p p' : Bytes} {n : ℕ} (hn : 2 ≤ n) (hle : n ≤ maxMsg + 1)
      (hp : p.length = maxMsg + 1) (hp' : p'.length = maxMsg + 1) (htake : p.take n = p'.take n) :
      Agree (.message i p n) (.message i p' n)

/-- The length that `msg_aes_dec` returns and the bytes it writes do not depend on what
its buffer held. -/
theorem msgAesDec_agree (G : Gcm) (key iv inp b b' : Bytes) (n lim : ℕ) :
    (msgAesDec G key iv inp b n lim).2 = (msgAesDec G key iv inp b' n lim).2 ∧
      ∀ m, (msgAesDec G key iv inp b n lim).2 = some m →
        (msgAesDec G key iv inp b n lim).1.take m = (msgAesDec G key iv inp b' n lim).1.take m := by
  simp only [msgAesDec]
  split_ifs with h1 h2 h3 hok
  · simp
  · simp
  · simp
  · refine ⟨rfl, fun m hm => ?_⟩
    simp only [Option.some.injEq] at hm
    simp only
    rw [memcpy_take_end (by omega) (by omega), memcpy_take_end (by omega) (by omega)]
    rfl
  · simp

/-- Behind the tag check the two decryptions wrote the same bytes over different ones. -/
theorem decode_agree (w : RecvCalls) {buffer b b' : Bytes} {n : ℕ}
    (hbuffer : buffer.length = maxMsg + 1) (hb : b.length = maxMsg + 1)
    (hb' : b'.length = maxMsg + 1) (hn : sizeofMsgCommon ≤ n) (hle : n ≤ maxMsg + 1) :
    (decode w buffer b n).Agree (decode w buffer b' n) := by
  simp only [decode]
  split_ifs with hsrv haes
  · cases w.getSrvPrv with
    | none => exact .ignored _ _
    | some prv =>
      simp only
      cases rsaDec prv (buffer.take (n - 1)) with
      | none => exact .same _ _ _
      | some out =>
        simp only
        split_ifs
        · exact .same _ _ _
        · exact .fault
  · have hdec := msgAesDec_agree w.gcm aesKey ivBytes buffer b b' n (maxMsg + 1)
    have hinp : n ≤ buffer.length := by omega
    have hlen := msgAesDec_length w.gcm aesKey ivBytes hb.ge hinp
    have hlen' := msgAesDec_length w.gcm aesKey ivBytes hb'.ge hinp
    generalize msgAesDec w.gcm aesKey ivBytes buffer b n (maxMsg + 1) = r at hdec hlen ⊢
    generalize msgAesDec w.gcm aesKey ivBytes buffer b' n (maxMsg + 1) = r' at hdec hlen' ⊢
    obtain ⟨c, o⟩ := r
    obtain ⟨c', o'⟩ := r'
    obtain ⟨rfl, htake⟩ := hdec
    cases o with
    | none => exact .ignored _ _
    | some m =>
      have hm := hlen.2 m rfl
      simp only [sizeofMsgCommon, aesIvBytes] at hn hm
      exact .upTo _ (by omega) (by omega) (hlen.1.trans hb) (hlen'.1.trans hb') (htake m rfl)
  · exact .same _ _ _

/-- The bytes up to `n` of a buffer written to depend on its bytes up to `n` alone. -/
theorem memcpy_take_congr {p p' src : Bytes} {off n : ℕ} (hlen : p.length = p'.length)
    (hfit : off + src.length ≤ p.length) (h : p.take n = p'.take n) :
    (memcpy p off src).take n = (memcpy p' off src).take n := by
  have hbyte : ∀ i < n, p[i]? = p'[i]? := by
    intro i hi
    rw [← List.getElem?_take_of_lt hi, h, List.getElem?_take_of_lt hi]
  ext i : 1
  by_cases hi : i < n
  · rw [List.getElem?_take_of_lt hi, List.getElem?_take_of_lt hi]
    have hoff : min off p.length = off := by omega
    simp only [memcpy, List.getElem?_append, List.length_append, List.length_take,
      List.getElem?_take, List.getElem?_drop, ← hlen, hoff]
    split_ifs with hsrc hfront
    · exact hbyte i hi
    · rfl
    · rw [Nat.add_sub_cancel' (by omega)]
      exact hbyte i hi
  · rw [List.getElem?_take_eq_none (by omega), List.getElem?_take_eq_none (by omega)]

theorem setReply_take_congr {p p' : Bytes} {n : ℕ} (route : UInt8) (hp : p.length = maxMsg + 1)
    (hp' : p'.length = maxMsg + 1) (htake : p.take n = p'.take n) :
    (setReply p route).take n = (setReply p' route).take n := by
  have h1 := setIfroute_length route hp
  have h2 := setIfroute_length route hp'
  have hroute : (setIfroute p route).take n = (setIfroute p' route).take n :=
    memcpy_take_congr (by omega) (by rw [hp]; simp) htake
  exact memcpy_take_congr (by omega) (by rw [h1]; simp) hroute

/-- The reply depends on the message alone, as its key covers what stands behind it. -/
theorem replyKey_congr {p p' : Bytes} {n : ℕ} (route : UInt8) (hp : p.length = maxMsg + 1)
    (hp' : p'.length = maxMsg + 1) (htake : p.take n = p'.take n) :
    (replyKey p n route).map Prod.snd = (replyKey p' n route).map Prod.snd := by
  rcases replyKey_cases (n := n) route hp with ⟨hfit, q, hq, hkeyed, _⟩ | ⟨hfit, hnone⟩
  · rcases replyKey_cases (n := n) route hp' with ⟨_, q', hq', hkeyed', _⟩ | ⟨hfit', _⟩
    · have hmsg : q.item.msg = q'.item.msg := by
        rw [replyKey_msg hp hq, replyKey_msg hp' hq', setReply_take_congr route hp hp' htake]
      have hitem := FwdItem.ext_msg hmsg
      obtain ⟨item, keyed⟩ := q
      obtain ⟨item', keyed'⟩ := q'
      simp only at hitem hkeyed hkeyed'
      rw [hq, hq', hitem, hkeyed, hkeyed']
      rfl
    · exact absurd hfit hfit'
  · rcases replyKey_cases (n := n) route hp' with ⟨hfit', _⟩ | ⟨_, hnone'⟩
    · exact absurd hfit' hfit
    · rw [hnone, hnone']

theorem addToImdFwd_congr {p p' : Bytes} {n : ℕ} (hlen : p.length = p'.length)
    (htake : p.take n = p'.take n) (keyed : Bool) :
    addToImdFwd p n keyed = addToImdFwd p' n keyed := by
  simp only [addToImdFwd]
  by_cases hn : n ≤ p.length
  · have hitem : newItem p n hn = newItem p' n (hlen ▸ hn) := FwdItem.ext_msg htake
    rw [dif_pos hn, dif_pos (hlen ▸ hn), hitem]
  · rw [dif_neg hn, dif_neg (hlen ▸ hn)]

theorem routeMsg_congr {p p' : Bytes} {n : ℕ} (hn : 2 ≤ n) (hp : p.length = maxMsg + 1)
    (hp' : p'.length = maxMsg + 1) (htake : p.take n = p'.take n) :
    (routeMsg p n).map Prod.snd = (routeMsg p' n).map Prod.snd := by
  have hbyte : ∀ i < 2, byteAt p i = byteAt p' i := by
    intro i hi
    rw [← byteAt_take p (show i < n by omega), htake, byteAt_take _ (by omega)]
  have htype : msgType p = msgType p' := hbyte 0 (by omega)
  have hroute : ifroute p = ifroute p' := hbyte 1 (by omega)
  simp only [routeMsg, htype, hroute, addToImdFwd_congr (hp.trans hp'.symm) htake]
  split_ifs
  · simp only [Option.map_map]
    rfl
  · rfl
  · exact replyKey_congr fSrvCli hp hp' htake
  · exact replyKey_congr fSrvNtf hp hp' htake
  · rfl

/-- Two agreeing decodings whose texts both fit are treated alike. -/
theorem react_congr {stack : Bytes} {x y : Decoded} (h : x.Agree y) (hx : x.TextFits stack)
    (hy : y.TextFits stack) : react stack x = react stack y := by
  cases h with
  | fault => rfl
  | ignored b b' => rfl
  | same i p n => rfl
  | upTo i hn hle hp hp' htake =>
    have hdum := (dumMsg_isSome_iff _ _ _ _).mpr hx
    have hdum' := (dumMsg_isSome_iff _ _ _ _).mpr hy
    simp only [react, if_pos hdum, if_pos hdum', routeMsg_congr hn hp hp' htake]

theorem reaction_eq_dumFault_iff (w : RecvCalls) (stack bufout d : Bytes) :
    reaction w stack bufout d = .dumFault ↔ ¬ TextFits w stack bufout d := by
  simp only [reaction, TextFits]
  by_cases hn : min d.length (maxMsg + 1) < sizeofMsgCommon
  · rw [if_pos hn]
    exact iff_of_false (by simp) fun h => h fun hle => absurd hn (by omega)
  · rw [if_neg hn, react_eq_dumFault_iff]
    exact not_congr ⟨fun h _ => h, fun h => h (by omega)⟩

/-- The loop treats a datagram alike over two contents of `bufout` exactly when the text
of `DUM_MSG` fits over both or over none. -/
theorem reaction_eq_iff (w : RecvCalls) (stack d : Bytes) {b b' : Bytes}
    (hb : b.length = maxMsg + 1) (hb' : b'.length = maxMsg + 1) :
    reaction w stack b d = reaction w stack b' d ↔
      (TextFits w stack b d ↔ TextFits w stack b' d) := by
  constructor
  · intro heq
    rw [← not_iff_not, ← reaction_eq_dumFault_iff, ← reaction_eq_dumFault_iff, heq]
  · intro hfits
    by_cases hfit : TextFits w stack b d
    · have hfit' := hfits.mp hfit
      simp only [reaction]
      by_cases hn : min d.length (maxMsg + 1) < sizeofMsgCommon
      · rw [if_pos hn, if_pos hn]
      · have hle : sizeofMsgCommon ≤ min d.length (maxMsg + 1) := by omega
        rw [if_neg hn, if_neg hn]
        exact react_congr (decode_agree w (recvBuf_length d) hb hb' hle (Nat.min_le_right _ _))
          (hfit hle) (hfit' hle)
    · rw [(reaction_eq_dumFault_iff w stack b d).mpr hfit,
        (reaction_eq_dumFault_iff w stack b' d).mpr (mt hfits.mpr hfit)]

/-! ### Two histories -/

/-- After any two histories of the server the loop treats the same datagram alike exactly
when the text that `DUM_MSG` makes of it fits after both or after none. -/
theorem reaction_after_histories_iff (stack : Bytes) {b b' : Vector UInt8 (maxMsg + 1)}
    {es es' : List ServerEvent} {s s' : ServerState}
    (hrun : run (loopStep stack) (ServerState.init b) es = some s)
    (hrun' : run (loopStep stack) (ServerState.init b') es' = some s') (w : RecvCalls) (d : Bytes) :
    reaction w stack s.bufout d = reaction w stack s'.bufout d ↔
      (TextFits w stack s.bufout d ↔ TextFits w stack s'.bufout d) :=
  reaction_eq_iff w stack d (loop_bufout_length hrun) (loop_bufout_length hrun')

/-- A cipher that leaves its text as it is, under a tag of zeros. -/
def plainGcm : Gcm where
  encrypt := fun _ _ plain => some (plain, zeros aesIvBytes)
  decrypt := fun _ _ cipher tag => (cipher, decide (tag = zeros aesIvBytes))
  encrypt_length := by
    intro key iv plain cipher tag h
    cases h
    exact ⟨rfl, zeros_length _⟩
  decrypt_length := fun _ _ _ _ => rfl

/-- The datagram that `plainGcm` makes of a message. -/
def plainDatagram (m : Bytes) : Bytes := m ++ zeros aesIvBytes ++ [encryptAes]

/-- A notification whose ids have no terminator, a header long. -/
def openIds : Bytes := plainDatagram ([msgNtf, gNtfCli] ++ List.replicate 98 1)

/-- A message that fills `bufout` behind its header. -/
def longText : Bytes := plainDatagram (header msgTra gNtfCli [] [] ++ List.replicate 1084 1)

theorem reaction_after_histories_sample :
    ∃ s, run (loopStep []) (ServerState.init (Vector.replicate 1201 0))
        [.recv openIds ⟨none, plainGcm⟩] = some s ∧
      (reaction ⟨none, plainGcm⟩ [] (Vector.replicate 1201 0).toList openIds =
          reaction ⟨none, plainGcm⟩ [] s.bufout openIds ↔
        (TextFits ⟨none, plainGcm⟩ [] (Vector.replicate 1201 0).toList openIds ↔
          TextFits ⟨none, plainGcm⟩ [] s.bufout openIds)) := by
  have hsome : (run (loopStep []) (ServerState.init (Vector.replicate 1201 0))
      [.recv openIds ⟨none, plainGcm⟩]).isSome := by decide +kernel
  obtain ⟨s, hs⟩ := Option.isSome_iff_exists.mp hsome
  have hnil : run (loopStep []) (ServerState.init (Vector.replicate 1201 0)) [] =
      some (ServerState.init (Vector.replicate 1201 0)) := rfl
  exact ⟨s, hs, reaction_after_histories_iff [] hnil hs _ _⟩

/-- What an earlier long message left behind the header of a short one decides whether
the text of `DUM_MSG` overflows. -/
theorem reaction_depends_on_history :
    ¬ ∀ (stack : Bytes) (b : Vector UInt8 (maxMsg + 1)) (es es' : List ServerEvent)
      (s s' : ServerState), run (loopStep stack) (ServerState.init b) es = some s →
      run (loopStep stack) (ServerState.init b) es' = some s' → ∀ (w : RecvCalls) (d : Bytes),
      reaction w stack s.bufout d = reaction w stack s'.bufout d := by
  intro h
  have hfresh : ¬ (reaction ⟨none, plainGcm⟩ []
      (ServerState.init (Vector.replicate 1201 0)).bufout openIds).IsFault := by
    decide +kernel
  have hlong : (run (loopStep []) (ServerState.init (Vector.replicate 1201 0))
      [.recv longText ⟨none, plainGcm⟩]).map
        (fun s => decide (reaction ⟨none, plainGcm⟩ [] s.bufout openIds).IsFault) = some true := by
    decide +kernel
  obtain ⟨s, hs, hfault⟩ := Option.map_eq_some_iff.mp hlong
  have heq := h [] _ [] [.recv longText ⟨none, plainGcm⟩] _ s (run_nil _ _) hs
    ⟨none, plainGcm⟩ openIds
  generalize hr : reaction ⟨none, plainGcm⟩ [] s.bufout openIds = r at hfault heq
  rw [heq] at hfresh
  exact hfresh (of_decide_eq_true hfault)

end MemoryLeak.Notify
