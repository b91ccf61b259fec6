import MemoryLeak.Notify.Delivery
import MemoryLeak.Notify.Dump
import MemoryLeak.Notify.Helpers
import MemoryLeak.Notify.KeyAgreement
import MemoryLeak.Notify.SendingThread

/-!
# The parties together

The server with its two threads, and any number of clients and notifiers that send it tracking
messages, requests for the key, notifications and answers. A datagram once sent can arrive any
number of times, in any order, or never. What the notifiers sent and what the peers received is
recorded beside the state.
-/
namespace MemoryLeak.Notify
open MemoryLeak.CBytes MemoryLeak.Runs

/-- The parties with the identifiers, addresses and keys they were installed with. -/
structure Site (ι : Type) where
  party : ι → Party
  iid : ι → Bytes
  addr : ι → SockAddrIn
  gcm : Gcm
  srvPub : RsaPub
  srvPrv : RsaPrv
  /-- The key files named after an identifier. -/
  cliPub : Bytes → RsaPub
  cliPrv : Bytes → RsaPrv

/-- The server, the peers and the datagrams sent so far. -/
structure Exchange (ι : Type) where
  table : Table
  /-- The forward queue, head first. -/
  queue : List FwdItem
  bufout : Bytes
  threadBufout : Bytes
  peer : ι → PeerState
  toMain : List Bytes
  /-- With the address of the sender. -/
  toThread : List (Bytes × SockAddrIn)
  /-- With the address it was sent to. -/
  toPeer : List (Bytes × SockAddrIn)
  /-- The notifications of the notifiers. -/
  sent : List (ι × Bytes)
  /-- The notifications that clients received. -/
  got : List (ι × Bytes)
  /-- The answers that notifiers received. -/
  confirmed : List (ι × Bytes)

/-- The keys of a peer before the first reply. -/
def peerStart : PeerState := ⟨zeros aesBytes, zeros aesIvBytes, false, zeros (maxMsg + 1)⟩

/-- The server after `load_reg_list`, and peers that have sent nothing. -/
def exchangeStart (ι : Type) (regs : List TableOp) : Exchange ι where
  table := (exec tableStep emptyTable regs).1
  queue := []
  bufout := zeros (maxMsg + 1)
  threadBufout := zeros (maxMsg + 1)
  peer := fun _ => peerStart
  toMain := []
  toThread := []
  toPeer := []
  sent := []
  got := []
  confirmed := []

namespace Site

variable {ι : Type} (σ : Site ι)

/-! ### What the peers send -/

/-- A message of a peer under its key. -/
def aesDatagram (st : PeerState) (msg : Bytes) : Option Bytes :=
  (msgAesEnc σ.gcm st.aes256Key st.aes256Iv msg (zeros (maxMsg + 1)) (maxMsg + 1)).map fun r =>
    r.1.take r.2

/-- What `send_msg_track` sends. -/
def trackDatagram (i : ι) (st : PeerState) (t : Timespec) : Option Bytes :=
  let buf := trackMsg (σ.iid i) (some t)
  if st.gotAes then σ.aesDatagram st (buf.take sizeofMsgCommon)
  else (rsaDatagram (some σ.srvPub) buf sizeofMsgCommon).bind Sending.sent

/-- What `cmd_2_srv` sends for a key. -/
def requestDatagram (i : ι) (t : Timespec) : Option Bytes :=
  (rsaDatagram (some σ.srvPub) (cmdMsg msgGetAes (σ.party i).request none (σ.iid i) t)
    (cmdLen none)).bind Sending.sent

/-- The message of `notifier` for a device. -/
def notification (i : ι) (dev text : Bytes) (t : Timespec) : Bytes :=
  (notifierBuffer dev (σ.iid i) text t).take (maxMsg - aesIvBytes)

end Site

/-! ### Steps -/

inductive ExchangeEvent (ι : Type) where
  | track (i : ι) (t : Timespec)
  | request (i : ι) (t : Timespec)
  | notify (i : ι) (dev text : Bytes) (t : Timespec)
  /-- The loop of `main` receives a datagram. -/
  | main (d : Bytes)
  /-- The sending thread does. -/
  | thread (d : Bytes) (cliaddr : SockAddrIn) (around : ℤ → UInt8) (stack : Bytes)
  /-- `send_to_dst` drains the queue, with what the memory behind the messages holds and what
  `sendto` returns. -/
  | drain (behind : ℕ → Bytes) (sendto : ℕ → ℤ)
  /-- A peer receives a datagram. -/
  | receive (i : ι) (d : Bytes)

/-- The taken chain with the memory behind its messages. -/
def takenChain (queue : List FwdItem) (behind : ℕ → Bytes) : List Taken :=
  queue.zipIdx.map fun x => ⟨x.1, behind x.2⟩

section Step

variable {ι : Type} [DecidableEq ι] (σ : Site ι)

/-- What the calls for the messages of a chain return: the keys are found under the `dev_id`. -/
def Site.calls (chain : List Taken) (sendto : ℕ → ℤ) (k : ℕ) : Calls where
  getCliPub := (chain[k]?).map fun q => σ.cliPub (idKey (devId q.mem))
  gcm := σ.gcm
  sendto := sendto k

/-- What a peer has received is recorded, and the answer of a client sent. -/
def record (i : ι) (st : PeerState) (r : Received) (s : Exchange ι) : Exchange ι :=
  let feedback := r.feedback.bind fun p => σ.aesDatagram st (p.take sizeofMsgCommon)
  { s with
    toMain := s.toMain ++ feedback.toList
    got := match σ.party i with
      | .client => if ifroute r.msg = gNtfCli then s.got ++ [(i, r.msg)] else s.got
      | .notifier => s.got
    confirmed := match σ.party i with
      | .client => s.confirmed
      | .notifier =>
        if ifroute r.msg = gCliNtf then s.confirmed ++ [(i, r.msg)] else s.confirmed }

/-- One step, but for `DUM_MSG`; `none` where the code leaves a buffer. -/
def exchangeStep (s : Exchange ι) : ExchangeEvent ι → Option (Exchange ι)
  | .track i t =>
    let d := σ.trackDatagram i (s.peer i) t
    some { s with toThread := s.toThread ++ d.toList.map fun d => (d, σ.addr i) }
  | .request i t => some { s with toMain := s.toMain ++ (σ.requestDatagram i t).toList }
  | .notify i dev text t =>
    let buffer := notifierBuffer dev (σ.iid i) text t
    match notifierSend σ.gcm (s.peer i) buffer (maxMsg - aesIvBytes) with
    | none => some s
    | some d =>
      some { s with
        toMain := s.toMain ++ [d]
        sent := s.sent ++ [(i, σ.notification i dev text t)] }
  | .main d =>
    (mainTurn ⟨some σ.srvPrv, σ.gcm⟩ s.bufout d).map fun r =>
      { s with bufout := r.1, queue := r.2.toList.map Queued.item ++ s.queue }
  | .thread d cliaddr around stack =>
    (sendingRecv ⟨⟨some σ.srvPrv, σ.gcm⟩, fun _ => none⟩ s.table around s.threadBufout stack
      cliaddr d).map fun r => { s with threadBufout := r.bufout, table := r.table }
  | .drain behind sendto =>
    let chain := takenChain s.queue behind
    (sendToDst s.table true (σ.calls chain sendto) chain).map fun r =>
      { s with queue := [], toPeer := s.toPeer ++ r.2.map fun x => (x.payload, x.ipv4) }
  | .receive i d =>
    let own := σ.cliPrv (idKey (σ.iid i))
    ((σ.party i).turn ⟨some own, σ.gcm⟩ (s.peer i) d).map fun r =>
      let s := { s with peer := Function.update s.peer i r.1 }
      match r.2 with
      | none => s
      | some received => record σ i r.1 received s

/-! ### What the steps print -/

/-- `DUM_MSG(item)` at its place in the source. -/
structure DumCall where
  file : String
  func : String
  line : ℕ
  item : Bytes

/-- What lies behind the names `ifr` of `dum_msg`, as far as it points to texts, and behind the
buffer of the message. -/
structure Behind where
  ifr : List String
  stack : Bytes

/-- What the call prints. -/
def DumCall.print (c : DumCall) (b : Behind) : Option ℕ :=
  dumMsgIn (ifrText ++ b.ifr) c.file c.func c.line (c.item ++ b.stack)

/-- The call of `DUM_MSG` in a step. -/
def dumCall (s : Exchange ι) : ExchangeEvent ι → Option DumCall
  | .request i t =>
    some ⟨"msg_notify.c", "cmd_2_srv", 1319,
      cmdMsg msgGetAes (σ.party i).request none (σ.iid i) t⟩
  | .notify i dev text t =>
    some ⟨"notifier.c", "notifier", 256, notifierBuffer dev (σ.iid i) text t⟩
  | .main d =>
    let n := min d.length (maxMsg + 1)
    if n < sizeofMsgCommon then none
    else
      match decode ⟨some σ.srvPrv, σ.gcm⟩ (recvBuf d) s.bufout n with
      | .message _ p _ => some ⟨"server.c", "main", 352, p⟩
      | _ => none
  | .receive i d =>
    let n := min d.length (maxMsg + 1)
    if n < sizeofMsgCommon then none
    else
      let own := σ.cliPrv (idKey (σ.iid i))
      match σ.party i, peerDecode ⟨some own, σ.gcm⟩ (s.peer i) (recvBuf d) n with
      | .client, .message _ p _ =>
        if ifroute p = gNtfCli then some ⟨"client.c", "main", 149, p⟩ else none
      | _, _ => none
  | _ => none

/-- One step with what it prints. -/
def printedStep (s : Exchange ι) (x : ExchangeEvent ι × Behind) : Option (Exchange ι) :=
  match dumCall σ s x.1 with
  | none => exchangeStep σ s x.1
  | some c => (c.print x.2).bind fun _ => exchangeStep σ s x.1

/-- A frame under the key of the server does not open under the key of the peer. -/
def Unopened (st : PeerState) (d : Bytes) : Prop :=
  ∀ m cipher tag, σ.gcm.encrypt aesKey ivBytes m = some (cipher, tag) →
    d = cipher ++ tag ++ [encryptAes] →
      (σ.gcm.decrypt st.aes256Key st.aes256Iv cipher tag).2 = false

/-- Datagrams arrive where they were sent to, only a notifier with the key notifies, and a frame
opens under no other key than its own. -/
def Honest (s : Exchange ι) : ExchangeEvent ι → Prop
  | .notify i _ _ _ => σ.party i = .notifier ∧ (s.peer i).gotAes = true
  | .main d => d ∈ s.toMain
  | .thread d cliaddr _ _ => (d, cliaddr) ∈ s.toThread
  | .receive i d =>
    (d, σ.addr i) ∈ s.toPeer ∧ (¬ HasKey (s.peer i) → Unopened σ (s.peer i) d)
  | _ => True

end Step

/-- The site is installed as its programs expect. -/
structure Site.Lawful {ι : Type} (σ : Site ι) : Prop where
  gcm : σ.gcm.Lawful
  srv_undo : ∀ m c, rsaEnc σ.srvPub m = some c → rsaDec σ.srvPrv c = some m
  cli_undo : ∀ k m c, rsaEnc (σ.cliPub k) m = some c → rsaDec (σ.cliPrv k) c = some m
  /-- The keys take a reply, and their blocks fit the buffers. -/
  cli_encrypts : ∀ k m, 0 < m.length → m.length ≤ sizeofMsgCommon + aesBytes + aesIvBytes →
    (rsaEnc (σ.cliPub k) m).isSome
  cli_size : ∀ k, (σ.cliPub k).size ≤ maxMsg
  readable : ∀ i, lenDevid ≤ (σ.iid i).length
  terminated : ∀ i, Terminated (σ.iid i)
  addr_ne : ∀ i, σ.addr i ≠ noAddr
  /-- One party at an address. -/
  addr_iid : ∀ i j, σ.addr i = σ.addr j → idKey (σ.iid i) = idKey (σ.iid j)

end MemoryLeak.Notify
