import MemoryLeak.Channels
import MemoryLeak.Cluster.DateDirs

/-!
# A session with the warehouse server

`lcs_odbc` and the process that `lcs_whserver` forks for it: the keys go to the server
under its public key, the server says that it is ready, and answers the request with a
file. Each loop of the two is a machine here, a step for each call of `send` and `recv`.
What is sent by one call is received by one, and every `send` sends all that it is given.
-/
namespace MemoryLeak.Cluster.Session
open MemoryLeak.CBytes MemoryLeak.CText MemoryLeak.Cbc MemoryLeak.Loops MemoryLeak.Channels
open MemoryLeak.Cluster.Texts Relation

/-- The client's public key and the server's private key: `RSA_size`, and what
`RSA_public_encrypt` and `RSA_private_decrypt` make of their data. -/
structure Rsa where
  size : ℕ
  encrypt : Bytes → Bytes
  decrypt : Bytes → Option Bytes

/-- The keys are a pair: as the padding takes 11 bytes, all that leaves room for them comes back. -/
def Rsa.Paired (rsa : Rsa) : Prop :=
  ∀ m, m.length + 11 ≤ rsa.size →
    (rsa.encrypt m).length = rsa.size ∧ rsa.decrypt (rsa.encrypt m) = some m

/-- What the two programs find around them. `cipher` and `accepted` are `DES_ede3` and
`DES_set_key_checked` under three keys, `fopen` is what the server can read, and `behindClient` and
`behindServer` are the bytes that follow the buffers of `lcs_3des_recv`. -/
structure Site where
  rsa : Rsa
  cipher : Bytes → Des
  accepted : Bytes → Bool
  fopen : Bytes → Option Bytes
  rootpath : CStr 1024
  behindClient : ℕ → Fin 507 → UInt8
  behindServer : ℕ → Fin 507 → UInt8

/-- `LCS_WHSEVER_CFG` of the client, as far as it makes up the request. -/
structure LcsOdbcCfg where
  dbserver : CStr 64
  dbname : CStr 64
  datefrom : CStr 32
  dateto : CStr 32
  analysis : CStr 32
  mode : CStr 32

def LcsOdbcCfg.fields (p : LcsOdbcCfg) : List Bytes :=
  [p.dbserver.bytes, p.dbname.bytes, p.datefrom.bytes, p.dateto.bytes, p.analysis.bytes,
    p.mode.bytes]

/-- `LCS_RSA_3DES_ON`. -/
def modeOn : UInt8 := 0x00

/-- `LCS_WHS_READY`. -/
def lcsWhsReady : Bytes := ascii "READY"

/-- `LCS_WHS_FINISHED`. -/
def lcsWhsFinished : Bytes := ascii "FINISHED"

/-! ### The client -/

inductive Client where
  | start
  /-- In `lcs_3des_recv` of `lcs_odbc_recv_ready`. -/
  | ready (s : Recv3des)
  | send (m : Bytes) (ms : List Bytes) (next : Client)
  /-- In the loop of `lcs_odbc_recv_file`. -/
  | file (s : RecvState)
  /-- The file written, if it could be opened, and whether `*err` is set. -/
  | ended (file : Option Bytes) (err : Bool)
  | undefined

def Client.sending (next : Client) : List Bytes → Client
  | [] => next
  | m :: ms => .send m ms next

/-- Mode, length and the three keys. -/
def keyMessage (key : Bytes) : Bytes := modeOn :: ushortBytes 24 ++ key

/-- `msg` of `lcs_odbc_send_request`. -/
def requestMessage (p : LcsOdbcCfg) : Bytes := lcsWhsRequest ++ 58 :: [9].intercalate p.fields

/-- Behind the loop of `lcs_odbc_recv_file`. -/
def Client.closeFile (s : RecvState) : Client :=
  .ended (some s.file) (decide (s.checksum ≠ s.total))

/-- A turn of the loop of `lcs_odbc_recv_file`. -/
def lcsOdbcRecvTurn (c : Des) (s : RecvState) (received : Option Bytes) : Client :=
  let cipher := (received.getD []).take 512
  if cipher = [] then .closeFile s
  else
    match recvTurn c s cipher with
    | none => .undefined
    | some (.again s) => .file s
    | some (.leave s) => .closeFile s

/-- `lcs_odbc_recv_file`, up to its first `recv`; the keys have been accepted by now. -/
def lcsOdbcRecvData (opened : Bool) : Client :=
  if opened then .file ⟨[], 0, 0⟩ else .ended none false

def lcsOdbcSendRequest (c : Des) (p : LcsOdbcCfg) : List Bytes :=
  lcs3desSend c modeOver (requestMessage p ++ [0])

/-- A turn of the loop in which the client waits for the server. -/
def lcsOdbcRecvReady (site : Site) (key : Bytes) (p : LcsOdbcCfg) (opened : Bool) (s : Recv3des)
    (received : Option Bytes) : Client :=
  let c := site.cipher key
  match recv3desTurn c true (fun _ => received.getD []) site.behindClient s with
  | none => .undefined
  | some (.again s) => .ready s
  | some (.leave s) =>
    match s.data with
    | none => (lcsOdbcRecvData opened).sending (lcsOdbcSendRequest c p)
    | some data =>
      if strcmp data lcsWhsReady ≠ 0 then .ended none true
      else (lcsOdbcRecvData opened).sending (lcsOdbcSendRequest c p)

/-- `lcs_connected_socket` with the three keys that `lcs_3des_gen` has drawn. -/
def client (site : Site) (key : Bytes) (p : LcsOdbcCfg) (opened : Bool) :
    Client → Act Bytes Client
  | .start => .send (site.rsa.encrypt (keyMessage key))
      (if site.accepted key then .ready startRecv else .ended none true)
  | .ready s => .recv (lcsOdbcRecvReady site key p opened s)
  | .send m ms next => .send m (next.sending ms)
  | .file s => .recv (lcsOdbcRecvTurn (site.cipher key) s)
  | .ended _ _ => .halt
  | .undefined => .fault

/-! ### The server -/

inductive Server where
  | start
  | send (m : Bytes) (ms : List Bytes) (next : Server)
  /-- In `lcs_3des_recv` of `lcs_whs_recv_request`. -/
  | request (key : Bytes) (s : Recv3des)
  | ended (err : Bool)
  | undefined

def Server.sending (next : Server) : List Bytes → Server
  | [] => next
  | m :: ms => .send m ms next

/-- The keys of `lcs_whs_3des`, if `*err` is not set. A message that is not decrypted leaves zeros
in the block. -/
def lcsWhs3des (rsa : Rsa) (received : Bytes) : Option Bytes :=
  let buf := received.take 2048 ++ zeros (2049 - (received.take 2048).length)
  match rsa.decrypt (buf.take rsa.size) with
  | none => none
  | some decrypt =>
    let block := decrypt ++ zeros (rsa.size - decrypt.length)
    if decrypt.length < 1 then none
    else if byteAt block 0 ≠ modeOn then none
    else if segmentLength block ≠ 24 then none
    else some ((block.drop 3).take 24)

/-- `lcs_whs_sendoff`, after an error. -/
def lcsWhsSendoff (c : Des) : Server :=
  (Server.ended true).sending (lcs3desSend c modeOff (lcsWhsFinished ++ [0]))

/-- A turn of the loop in which the server waits for the request, and `lcs_whs_send_data`. -/
def lcsWhsRequestTurn (site : Site) (key : Bytes) (s : Recv3des) (received : Option Bytes) :
    Server :=
  let c := site.cipher key
  match recv3desTurn c true (fun _ => received.getD []) site.behindServer s with
  | none => .undefined
  | some (.again s) => .request key s
  | some (.leave s) =>
    match lcsWhsRecvRequest s.data zeroRequest with
    | .error _ => .undefined
    | .ok (_, true) => lcsWhsSendoff c
    | .ok (p, false) =>
      match lcsWhsGetPath site.rootpath p with
      | none => .undefined
      | some path => (Server.ended false).sending (lcsWhsSendFile c true (site.fopen path))

/-- `lcs_whs_3des` and `lcs_whs_send_ready`. Keys that are not accepted let `lcs_whs_sendoff` send
nothing either. -/
def lcsWhsAccept (site : Site) (received : Option Bytes) : Server :=
  match lcsWhs3des site.rsa (received.getD []) with
  | none => .ended true
  | some key =>
    if site.accepted key then
      (Server.request key startRecv).sending
        (lcs3desSend (site.cipher key) modeOver (lcsWhsReady ++ [0]))
    else .ended true

/-- `lcs_connected_socket` of the server. -/
def server (site : Site) : Server → Act Bytes Server
  | .start => .recv (lcsWhsAccept site)
  | .send m ms next => .send m (next.sending ms)
  | .request key s => .recv (lcsWhsRequestTurn site key s)
  | .ended _ => .halt
  | .undefined => .fault

/-- A connection that has just been made. -/
def connected : Net Bytes Client Server := ⟨.start, .start, [], []⟩

/-! ### Messages of one frame -/

theorem lcs3desSend_short (c : Des) (mode : UInt8) {data : Bytes} (hne : data ≠ [])
    (hlen : data.length ≤ 512) : lcs3desSend c mode data = [frameFrom c cblock mode data] := by
  have hmin : min (data.length % 65536) 512 = data.length := by omega
  have hdrop : data.drop 512 = [] := List.drop_eq_nil_of_le hlen
  obtain ⟨n, hn⟩ : ∃ n, data.length = n + 1 :=
    Nat.exists_eq_succ_of_ne_zero (List.length_pos_of_ne_nil hne).ne'
  rw [lcs3desSend, lcs3desSendFrom, if_neg hne, hmin]
  dsimp only
  rw [List.take_length, hdrop, hn, lcs3desSendFrom, if_pos rfl]

/-- The frame of a text and its NUL. -/
def messageFrame (c : Des) (t : Bytes) : Bytes := frameFrom c cblock modeOver (t ++ [0])

theorem lcs3desSend_message (c : Des) {t : Bytes} (hlen : t.length < 509) :
    lcs3desSend c modeOver (t ++ [0]) = [messageFrame c t] := by
  refine lcs3desSend_short c modeOver ?_ ?_
  · exact List.append_ne_nil_of_right_ne_nil t (List.cons_ne_nil 0 [])
  · rw [List.length_append, List.length_singleton]
    omega

/-- The text of a message that fits into a frame is received in one turn. -/
theorem recv3desTurn_message (c : Des) (behind : ℕ → Fin 507 → UInt8) {t : Bytes}
    (ht : (0 : UInt8) ∉ t) (hlen : t.length < 509) :
    ∃ s, recv3desTurn c true (fun _ => messageFrame c t) behind startRecv = some (.leave s) ∧
      s.data = some t := by
  obtain ⟨s, hrun, hdata, -, -⟩ := comesBack_of_length_le (c := c) behind ht hlen
  have hone := hrun 1 Nat.one_pos
  rw [lcs3desRecv, if_pos rfl, Option.map_eq_some_iff] at hone
  obtain ⟨s', hloop, hs'⟩ := hone
  have hrecv : recv3desTurn c true (delivered c (t ++ [0])) behind startRecv =
      recv3desTurn c true (fun _ => messageFrame c t) behind startRecv := by
    have hzero : delivered c (t ++ [0]) startRecv.i = messageFrame c t := by
      rw [delivered, lcs3desSend_message c hlen]
      rfl
    simp only [recv3desTurn, afterRecv, Overflows, segmentAt, cipherAt, hzero]
  rw [whileLoop, hrecv] at hloop
  refine ⟨s, ?_, hdata⟩
  cases hturn : recv3desTurn c true (fun _ => messageFrame c t) behind startRecv with
  | none =>
    rw [hturn] at hloop
    cases hloop
  | some turn =>
    rw [hturn] at hloop
    cases turn with
    | again s₁ => cases hloop
    | leave s₁ => rw [Option.some.inj hloop, (Prod.mk.inj hs').1]

/-! ### The keys -/

theorem keyMessage_length {key : Bytes} (hkey : key.length = 24) :
    (keyMessage key).length = 27 := by
  rw [keyMessage, List.length_append, List.length_cons, hkey]
  rfl

/-- The server's keys are the client's. -/
theorem lcsWhs3des_keyMessage {rsa : Rsa} (hpaired : rsa.Paired) (hmin : 38 ≤ rsa.size)
    (hmax : rsa.size ≤ 2048) {key : Bytes} (hkey : key.length = 24) :
    lcsWhs3des rsa (rsa.encrypt (keyMessage key)) = some key := by
  have hlen := keyMessage_length hkey
  obtain ⟨hsize, hdecrypt⟩ := hpaired (keyMessage key) (by omega)
  have hbuf : ((rsa.encrypt (keyMessage key)).take 2048 ++
      zeros (2049 - ((rsa.encrypt (keyMessage key)).take 2048).length)).take rsa.size =
        rsa.encrypt (keyMessage key) := by
    have htake : (rsa.encrypt (keyMessage key)).take 2048 = rsa.encrypt (keyMessage key) :=
      List.take_of_length_le (by omega)
    rw [htake, List.take_append_of_le_length hsize.ge, List.take_of_length_le hsize.le]
  have hlength : ∀ s, segmentLength (keyMessage key ++ s) = 24 := fun _ => rfl
  have hdata : ∀ s, ((keyMessage key ++ s).drop 3).take 24 = key := by
    intro s
    have hdrop : (keyMessage key ++ s).drop 3 = key ++ s := rfl
    rw [hdrop, List.take_append_of_le_length hkey.ge, List.take_of_length_le hkey.le]
  rw [lcsWhs3des, hbuf, hdecrypt]
  dsimp only
  rw [if_neg (by omega), if_neg (fun h => h rfl), if_neg (fun h => h (hlength _)), hdata]

/-! ### The file -/

section File

variable {site : Site} {key : Bytes} {p : LcsOdbcCfg} {opened : Bool}

theorem lcsOdbcRecvTurn_some (c : Des) (s : RecvState) {m : Bytes} (hne : m ≠ [])
    (hlen : m.length ≤ 512) : lcsOdbcRecvTurn c s (some m) =
      match recvTurn c s m with
      | none => .undefined
      | some (.again s) => .file s
      | some (.leave s) => .closeFile s := by
  rw [lcsOdbcRecvTurn, Option.getD_some, List.take_of_length_le hlen, if_neg hne]

/-- The client takes the frames that have arrived, until one ends its loop or none is left. -/
theorem receives_file {err : Bool} {toRight ms : List Bytes} {s s' : RecvState}
    (hne : ∀ m ∈ ms, m ≠ []) (hlen : ∀ m ∈ ms, m.length ≤ 512)
    (hrun : recvLoop (site.cipher key) ms s = some s') :
    ∃ rest, ReflTransGen (Step (client site key p opened) (server site))
      ⟨.file s, .ended err, toRight, ms⟩ ⟨.closeFile s', .ended err, toRight, rest⟩ := by
  induction ms generalizing s with
  | nil =>
    have hclosed : lcsOdbcRecvTurn (site.cipher key) s none = .closeFile s := by
      rw [lcsOdbcRecvTurn, Option.getD_none, List.take_nil, if_pos rfl]
    cases hrun
    refine ⟨[], .single ?_⟩
    rw [← hclosed]
    exact .left_closed rfl rfl toRight
  | cons m ms ih =>
    have hstep : Step (client site key p opened) (server site)
        ⟨.file s, .ended err, toRight, m :: ms⟩
        ⟨lcsOdbcRecvTurn (site.cipher key) s (some m), .ended err, toRight, ms⟩ :=
      .left_recv rfl _ m toRight ms
    rw [lcsOdbcRecvTurn_some _ s (hne m List.mem_cons_self) (hlen m List.mem_cons_self)] at hstep
    rw [recvLoop] at hrun
    cases hturn : recvTurn (site.cipher key) s m with
    | none =>
      rw [hturn] at hrun
      cases hrun
    | some turn =>
      rw [hturn] at hrun hstep
      cases turn with
      | again s₁ =>
        obtain ⟨rest, hrest⟩ := ih (fun m hm => hne m (List.mem_cons_of_mem _ hm))
          (fun m hm => hlen m (List.mem_cons_of_mem _ hm)) hrun
        exact ⟨rest, .head hstep hrest⟩
      | leave s₁ =>
        cases hrun
        exact ⟨ms, .single hstep⟩

/-- The frames of a file are received as they are sent. -/
theorem lcsWhsSendFile_short (c : Des) (file : Option Bytes) :
    ∀ m ∈ lcsWhsSendFile c true file, m ≠ [] ∧ m.length ≤ 512 := by
  cases file with
  | none => exact fun m hm => absurd hm List.not_mem_nil
  | some file =>
    intro m hm
    obtain ⟨hck, hck32, -⟩ := checksumFrame_length (c := c) file
    have hchunks := sendChunks_segmentation c file
    rw [lcsWhsSendFile, if_pos rfl, lcs3desSend_checksum, List.singleton_append] at hm
    rcases List.mem_cons.mp hm with rfl | hm
    · exact ⟨List.ne_nil_of_length_pos (by omega), by omega⟩
    · exact ⟨hchunks.nonempty m hm, hchunks.short m hm⟩

/-- What the client makes of them. -/
theorem recvLoop_sendFile (c : Des) (file : Option Bytes) :
    ∃ s, recvLoop c (lcsWhsSendFile c true file) ⟨[], 0, 0⟩ = some s ∧ s.file = file.getD [] ∧
      (s.checksum ≠ s.total ↔ 4294967296 ≤ (file.getD []).length) := by
  cases file with
  | none => exact ⟨⟨[], 0, 0⟩, rfl, rfl, by simp⟩
  | some file =>
    have hwhole := recv_whole c file
    rw [lcsOdbcRecvFile, if_pos rfl, if_pos rfl, Option.map_eq_some_iff] at hwhole
    obtain ⟨s, hs, hout⟩ := hwhole
    obtain ⟨hfile, herr⟩ := Prod.mk.inj hout
    refine ⟨s, hs, Option.some.inj hfile, ?_⟩
    have hiff := decide_eq_decide.mp herr
    rw [hiff, ne_eq, ftell_eq_mod_iff file le_rfl, Option.getD_some]
    omega

end File

/-! ### The request -/

theorem requestMessage_length_lt (p : LcsOdbcCfg) : (requestMessage p).length < 509 := by
  have h0 := p.dbserver.lt
  have h1 := p.dbname.lt
  have h2 := p.datefrom.lt
  have h3 := p.dateto.lt
  have h4 := p.analysis.lt
  have h5 := p.mode.lt
  simp only [requestMessage, lcsWhsRequest, LcsOdbcCfg.fields, List.intercalate_cons_cons,
    List.intercalate_singleton, List.length_append, List.length_cons, List.length_nil]
  omega

theorem requestMessage_noNul (p : LcsOdbcCfg) : (0 : UInt8) ∉ requestMessage p := by
  have hfields : (0 : UInt8) ∉ [9].intercalate p.fields := by
    refine notMem_intercalate (by decide) fun f hf => ?_
    simp only [LcsOdbcCfg.fields, List.mem_cons, List.not_mem_nil, or_false] at hf
    rcases hf with rfl | rfl | rfl | rfl | rfl | rfl
    exacts [p.dbserver.noNul, p.dbname.noNul, p.datefrom.noNul, p.dateto.noNul, p.analysis.noNul,
      p.mode.noNul]
  simp [requestMessage, lcsWhsRequest, hfields]

theorem lcsWhsRecvRequest_message {p : LcsOdbcCfg} {q : LcsWhsRequestData}
    (h : lcsWhsGenRequest ([9].intercalate p.fields) zeroRequest = .ok q) :
    lcsWhsRecvRequest (some (requestMessage p)) zeroRequest = .ok (q, false) := by
  have hstr : strstr (requestMessage p) lcsWhsRequest = true :=
    decide_eq_true (List.prefix_append _ _).isInfix
  have hdrop : (requestMessage p).dropWhile (· ≠ 58) = 58 :: [9].intercalate p.fields := rfl
  rw [lcsWhsRecvRequest, if_pos hstr, hdrop]
  dsimp only
  rw [h]
  rfl

/-! ### The phases of a schedule -/

section Phases

variable {site : Site} {key : Bytes} {p : LcsOdbcCfg} {opened : Bool}

theorem client_start (haccepted : site.accepted key = true) : client site key p opened .start =
    .send (site.rsa.encrypt (keyMessage key)) (.ready startRecv) := by
  rw [client, if_pos haccepted]

/-- The keys reach the server. -/
theorem keys_phase (hpaired : site.rsa.Paired) (hmin : 38 ≤ site.rsa.size)
    (hmax : site.rsa.size ≤ 2048) (hkey : key.length = 24) (haccepted : site.accepted key = true) :
    ReflTransGen (Step (client site key p opened) (server site)) connected
      ⟨.ready startRecv, (Server.request key startRecv).sending
        [messageFrame (site.cipher key) lcsWhsReady], [], []⟩ := by
  have hready : lcs3desSend (site.cipher key) modeOver (lcsWhsReady ++ [0]) =
      [messageFrame (site.cipher key) lcsWhsReady] := lcs3desSend_message _ (by decide)
  have hserver : lcsWhsAccept site (some (site.rsa.encrypt (keyMessage key))) =
      (Server.request key startRecv).sending [messageFrame (site.cipher key) lcsWhsReady] := by
    rw [lcsWhsAccept, Option.getD_some, lcsWhs3des_keyMessage hpaired hmin hmax hkey]
    dsimp only
    rw [if_pos haccepted, hready]
  refine .head (.left_send (client_start haccepted) Server.start [] []) ?_
  rw [← hserver]
  exact .single (.right_recv rfl _ _ [] [])

/-- The server says that it is ready, and the client sends its request. -/
theorem ready_phase :
    ReflTransGen (Step (client site key p opened) (server site))
      ⟨.ready startRecv, (Server.request key startRecv).sending
        [messageFrame (site.cipher key) lcsWhsReady], [], []⟩
      ⟨lcsOdbcRecvData opened, .request key startRecv,
        [messageFrame (site.cipher key) (requestMessage p)], []⟩ := by
  have hnul : (0 : UInt8) ∉ lcsWhsReady := by decide
  obtain ⟨s, hturn, hdata⟩ := recv3desTurn_message (site.cipher key) site.behindClient hnul
    (by decide)
  have hrequest : lcsOdbcSendRequest (site.cipher key) p =
      [messageFrame (site.cipher key) (requestMessage p)] :=
    lcs3desSend_message _ (requestMessage_length_lt p)
  have hready : lcsOdbcRecvReady site key p opened startRecv
      (some (messageFrame (site.cipher key) lcsWhsReady)) =
        (lcsOdbcRecvData opened).sending [messageFrame (site.cipher key) (requestMessage p)] := by
    have hsame : ¬ strcmp lcsWhsReady lcsWhsReady ≠ 0 := by decide
    rw [lcsOdbcRecvReady, Option.getD_some, hturn]
    dsimp only
    rw [hdata]
    dsimp only
    rw [if_neg hsame, hrequest]
  have hsays : Step (client site key p opened) (server site)
      ⟨.ready startRecv, (Server.request key startRecv).sending
        [messageFrame (site.cipher key) lcsWhsReady], [], []⟩
      ⟨.ready startRecv, .request key startRecv, [],
        [messageFrame (site.cipher key) lcsWhsReady]⟩ :=
    Step.right_send (f := client site key p opened) (g := server site) rfl _ [] []
  have hhears : Step (client site key p opened) (server site)
      ⟨.ready startRecv, .request key startRecv, [], [messageFrame (site.cipher key) lcsWhsReady]⟩
      ⟨(lcsOdbcRecvData opened).sending [messageFrame (site.cipher key) (requestMessage p)],
        .request key startRecv, [], []⟩ := by
    rw [← hready]
    exact .left_recv rfl _ _ [] []
  have hasks : Step (client site key p opened) (server site)
      ⟨(lcsOdbcRecvData opened).sending [messageFrame (site.cipher key) (requestMessage p)],
        .request key startRecv, [], []⟩
      ⟨lcsOdbcRecvData opened, .request key startRecv,
        [messageFrame (site.cipher key) (requestMessage p)], []⟩ :=
    Step.left_send (f := client site key p opened) (g := server site) rfl _ [] []
  exact .head hsays (.head hhears (.single hasks))

/-- The server sends the file of the request. -/
theorem request_phase {q : LcsWhsRequestData} {path : Bytes}
    (hrequest : lcsWhsGenRequest ([9].intercalate p.fields) zeroRequest = .ok q)
    (hpath : lcsWhsGetPath site.rootpath q = some path) (c : Client) :
    ReflTransGen (Step (client site key p opened) (server site))
      ⟨c, .request key startRecv, [messageFrame (site.cipher key) (requestMessage p)], []⟩
      ⟨c, .ended false, [], lcsWhsSendFile (site.cipher key) true (site.fopen path)⟩ := by
  obtain ⟨s, hturn, hdata⟩ := recv3desTurn_message (site.cipher key) site.behindServer
    (requestMessage_noNul p) (requestMessage_length_lt p)
  have hserver : lcsWhsRequestTurn site key startRecv
      (some (messageFrame (site.cipher key) (requestMessage p))) =
        (Server.ended false).sending
          (lcsWhsSendFile (site.cipher key) true (site.fopen path)) := by
    rw [lcsWhsRequestTurn, Option.getD_some, hturn]
    dsimp only
    rw [hdata, lcsWhsRecvRequest_message hrequest]
    dsimp only
    rw [hpath]
  have hstep : Step (client site key p opened) (server site)
      ⟨c, .request key startRecv, [messageFrame (site.cipher key) (requestMessage p)], []⟩
      ⟨c, (Server.ended false).sending
        (lcsWhsSendFile (site.cipher key) true (site.fopen path)), [], []⟩ := by
    rw [← hserver]
    exact .right_recv rfl _ _ [] []
  have hnext : ∀ m ms, server site ((Server.ended false).sending (m :: ms)) =
      .send m ((Server.ended false).sending ms) := fun _ _ => rfl
  exact .head hstep (right_sends hnext _ c [] [])

end Phases

/-! ### Whole sessions -/

/-- In every order of steps the session comes to the same end, without a deadlock: the client has
the file that the server keeps for the request, or an empty one if there is none, and reports an
error exactly if the file has more bytes than an `unsigned int` counts. -/
theorem session_delivers (site : Site) (hpaired : site.rsa.Paired) (hmin : 38 ≤ site.rsa.size)
    (hmax : site.rsa.size ≤ 2048) (key : Bytes) (hkey : key.length = 24)
    (haccepted : site.accepted key = true) (p : LcsOdbcCfg) (q : LcsWhsRequestData) (path : Bytes)
    (hrequest : lcsWhsGenRequest ([9].intercalate p.fields) zeroRequest = .ok q)
    (hpath : lcsWhsGetPath site.rootpath q = some path) (opened : Bool) :
    ∃ err rest, EndsIn (Step (client site key p opened) (server site)) connected
        ⟨.ended (if opened then some ((site.fopen path).getD []) else none) err, .ended false, [],
          rest⟩ ∧
      (err = true ↔ opened = true ∧ 4294967296 ≤ ((site.fopen path).getD []).length) := by
  have hschedule : ReflTransGen (Step (client site key p opened) (server site)) connected
      ⟨lcsOdbcRecvData opened, .ended false, [],
        lcsWhsSendFile (site.cipher key) true (site.fopen path)⟩ :=
    ((keys_phase hpaired hmin hmax hkey haccepted).trans ready_phase).trans
      (request_phase hrequest hpath _)
  cases opened with
  | false =>
    refine ⟨false, _, endsIn_of_schedule rfl rfl hschedule, ?_⟩
    simp
  | true =>
    obtain ⟨s, hloop, hfile, herr⟩ := recvLoop_sendFile (site.cipher key) (site.fopen path)
    have hshort := lcsWhsSendFile_short (site.cipher key) (site.fopen path)
    obtain ⟨rest, hrest⟩ : ∃ rest, ReflTransGen (Step (client site key p true) (server site))
        ⟨lcsOdbcRecvData true, .ended false, [],
          lcsWhsSendFile (site.cipher key) true (site.fopen path)⟩
        ⟨.closeFile s, .ended false, [], rest⟩ :=
      receives_file (fun m hm => (hshort m hm).1) (fun m hm => (hshort m hm).2) hloop
    refine ⟨decide (s.checksum ≠ s.total), rest, ?_, ?_⟩
    · rw [if_pos rfl, ← hfile]
      exact endsIn_of_schedule rfl rfl (hschedule.trans hrest)
    · rw [decide_eq_true_iff, herr]
      simp

/-- Zeros, a one and the message. -/
def samplePair : Rsa where
  size := 64
  encrypt m := zeros (63 - m.length) ++ 1 :: m
  decrypt c := some ((c.dropWhile (· == 0)).drop 1)

theorem samplePair_paired : samplePair.Paired := by
  intro m hm
  have hm : m.length + 11 ≤ 64 := hm
  constructor
  · show (zeros (63 - m.length) ++ 1 :: m).length = 64
    rw [List.length_append, zeros_length, List.length_cons]
    omega
  · have hzeros : ∀ b ∈ zeros (63 - m.length), (b == 0) = true := fun b hb =>
      beq_iff_eq.mpr (List.eq_of_mem_replicate hb)
    have hdrop : (zeros (63 - m.length) ++ 1 :: m).dropWhile (· == 0) = 1 :: m := by
      rw [List.dropWhile_append_of_pos hzeros]
      rfl
    show some (((zeros (63 - m.length) ++ 1 :: m).dropWhile (· == 0)).drop 1) = some m
    rw [hdrop, List.drop_one, List.tail_cons]

def sampleSite : Site where
  rsa := samplePair
  cipher _ := reverseBlocks
  accepted _ := true
  fopen _ := some [65]
  rootpath := ⟨[47], by decide, by decide⟩
  behindClient _ _ := 0
  behindServer _ _ := 0

def sampleKey : Bytes := [1, 2, 4, 7, 8, 11, 13, 14, 1, 2, 4, 7, 8, 11, 13, 14, 1, 2, 4, 7, 8, 11,
  13, 14]

/-- The same text with more room. -/
def moreRoom {n m : ℕ} (s : CStr n) (h : n ≤ m) : CStr m :=
  ⟨s.bytes, Nat.lt_of_lt_of_le s.lt h, s.noNul⟩

/-- Names of a byte, for a day. -/
def sampleCfg : LcsOdbcCfg where
  dbserver := moreRoom (oneByteRequest dayMode).dbserver (Nat.le_add_right 32 32)
  dbname := (oneByteRequest dayMode).dbname
  datefrom := (oneByteRequest dayMode).datefrom
  dateto := (oneByteRequest dayMode).dateto
  analysis := (oneByteRequest dayMode).analysis
  mode := moreRoom dayMode (Nat.le_add_right 16 16)

theorem sampleCfg_request : lcsWhsGenRequest ([9].intercalate sampleCfg.fields) zeroRequest =
    .ok (oneByteRequest dayMode) := by
  have hkept : Kept (oneByteRequest dayMode).fields := (kept_fields_iff _).mpr (by decide)
  exact (lcsWhsGenRequest_fields_iff (p := oneByteRequest dayMode) (by decide)).mpr hkept

theorem session_delivers_sample :
    ∃ err rest, EndsIn (Step (client sampleSite sampleKey sampleCfg true) (server sampleSite))
        connected ⟨.ended (some [65]) err, .ended false, [], rest⟩ ∧
      (err = true ↔ true = true ∧ 4294967296 ≤ ([65] : Bytes).length) :=
  session_delivers sampleSite samplePair_paired (by decide) (by decide) sampleKey rfl rfl sampleCfg
    (oneByteRequest dayMode) (ascii "//S/N/F/A.analysis")
    sampleCfg_request (by decide +kernel) true

/-! ### A server that refuses the keys -/

section Refused

variable {site : Site} {key : Bytes} {p : LcsOdbcCfg} {opened : Bool}

/-- The states of a session whose keys the server refuses: no end of the client is among them. -/
inductive Waiting (site : Site) (key : Bytes) : Net Bytes Client Server → Prop
  | start : Waiting site key connected
  | sent (s : Recv3des) :
      Waiting site key ⟨.ready s, .start, [site.rsa.encrypt (keyMessage key)], []⟩
  | refused (s : Recv3des) : Waiting site key ⟨.ready s, .ended true, [], []⟩

/-- `recv` returns 0, and the loop goes on. -/
theorem lcsOdbcRecvReady_none (s : Recv3des) :
    ∃ s', lcsOdbcRecvReady site key p opened s none = .ready s' := by
  have hnil : ((none : Option Bytes).getD []).take 512 = [] := rfl
  refine ⟨afterRecv (site.cipher key) true (fun _ => (none : Option Bytes).getD [])
    site.behindClient s, ?_⟩
  rw [lcsOdbcRecvReady, recv3desTurn, if_pos hnil]

/-- A step keeps the client waiting. -/
theorem Waiting.step (haccepted : site.accepted key = true)
    (hrefused : lcsWhsAccept site (some (site.rsa.encrypt (keyMessage key))) = .ended true)
    {b c : Net Bytes Client Server} (hb : Waiting site key b)
    (hstep : Step (client site key p opened) (server site) b c) : Waiting site key c := by
  cases hb with
  | start =>
    cases hstep with
    | left h =>
      rw [client_start haccepted] at h
      cases h
      exact .sent startRecv
    | right h => cases h
  | sent s =>
    cases hstep with
    | left h => cases h
    | right h =>
      have h' : some (lcsWhsAccept site (some (site.rsa.encrypt (keyMessage key))), [], []) =
        some _ := h
      rw [hrefused] at h'
      cases h'
      exact .refused s
  | refused s =>
    cases hstep with
    | left h =>
      obtain ⟨s', hs'⟩ := @lcsOdbcRecvReady_none site key p opened s
      have h' : some (lcsOdbcRecvReady site key p opened s none, [], []) = some _ := h
      rw [hs'] at h'
      cases h'
      exact .refused s'
    | right h => cases h

/-- There is always a step, a call of `recv` if nothing else. -/
theorem Waiting.progress (haccepted : site.accepted key = true) {b : Net Bytes Client Server}
    (hb : Waiting site key b) : ∃ c, Step (client site key p opened) (server site) b c := by
  cases hb with
  | start => exact ⟨_, .left_send (client_start haccepted) Server.start [] []⟩
  | sent s => exact ⟨_, .right_recv rfl (Client.ready s) _ [] []⟩
  | refused s => exact ⟨_, .left_closed rfl rfl []⟩

end Refused

/-- If the server refuses the keys, the client never ends: it reads from the closed connection for
ever, as `lcs_3des_recv` goes on when there is nothing to receive. -/
theorem refused_never_ends (site : Site) (key : Bytes) (haccepted : site.accepted key = true)
    (hrefused : lcsWhsAccept site (some (site.rsa.encrypt (keyMessage key))) = .ended true)
    (p : LcsOdbcCfg) (opened : Bool) (b : Net Bytes Client Server)
    (hrun : ReflTransGen (Step (client site key p opened) (server site)) connected b) :
    (∃ c, Step (client site key p opened) (server site) b c) ∧
      ∀ file err, b.left ≠ .ended file err := by
  have hwaiting : Waiting site key b := by
    induction hrun with
    | refl => exact .start
    | tail _ hstep ih => exact ih.step haccepted hrefused hstep
  refine ⟨hwaiting.progress haccepted, fun file err h => ?_⟩
  cases hwaiting with
  | start => cases h
  | sent s => cases h
  | refused s => cases h

/-- A private key that is not of the pair. -/
def otherKeySite : Site := { sampleSite with rsa := { samplePair with decrypt := fun _ => none } }

/-- The client has sent its keys, and the server has refused them. -/
theorem refused_never_ends_sample :
    let b : Net Bytes Client Server := ⟨.ready startRecv, .ended true, [], []⟩
    ReflTransGen (Step (client otherKeySite sampleKey sampleCfg true) (server otherKeySite))
      connected b ∧
    (∃ c, Step (client otherKeySite sampleKey sampleCfg true) (server otherKeySite) b c) ∧
      ∀ file err, b.left ≠ .ended file err := by
  intro b
  have hrefuse : Step (client otherKeySite sampleKey sampleCfg true) (server otherKeySite)
      ⟨.ready startRecv, .start, [otherKeySite.rsa.encrypt (keyMessage sampleKey)], []⟩ b :=
    Step.right_recv (k := lcsWhsAccept otherKeySite) rfl (Client.ready startRecv) _ [] []
  have hrun : ReflTransGen (Step (client otherKeySite sampleKey sampleCfg true)
      (server otherKeySite)) connected b :=
    .head (.left_send (client_start rfl) Server.start [] []) (.single hrefuse)
  exact ⟨hrun, refused_never_ends otherKeySite sampleKey rfl rfl sampleCfg true b hrun⟩

end MemoryLeak.Cluster.Session
