import MemoryLeak.CText
import MemoryLeak.Notify.Registration
import Mathlib.Data.List.TakeDrop

/-!
# The list of registered ids

`load_reg_list` on a list file of any content, over the heap of `Registration`. The loaded text
is cut by `strtok`; each line that is long enough is copied with the length of an id and
registered. A copy that leaves the loaded block has no outcome.
-/
namespace MemoryLeak.Notify
open MemoryLeak.CBytes MemoryLeak.CText MemoryLeak.Heap MemoryLeak.Runs

/-- The bytes of `"\r\n"`. -/
def isLineEnd (c : UInt8) : Bool := c == 13 || c == 10

/-- What one turn of the loop gets from outside: the time, the outcome of the key lookup, and
that of `realloc`. -/
structure RegEnv where
  t : Timespec
  rsa : Option RsaWord
  moves : Bool
  junk : Bytes

/-- `msg`, cleared, with `LEN_DEVID` bytes copied from `pch`. -/
def listMsg (pch : Bytes) : Bytes := memcpy (zeros sizeofMsgCommon) offDevId (pch.take lenDevid)

theorem listMsg_length (pch : Bytes) : (listMsg pch).length = sizeofMsgCommon := by
  rw [listMsg, memcpy_length (by simp; omega), zeros_length]

/-- `reg_to_table((MSG_REGISTER*) &msg, sz, &t)`. -/
def RegEnv.call (e : RegEnv) (pch : Bytes) : RegCall where
  msg := listMsg pch
  n := sizeofMsgCommon
  t := some e.t
  rsa := e.rsa
  moves := e.moves
  junk := e.junk
  header_le := le_rfl
  n_le := (listMsg_length pch).ge

/-- The loop that reads the file into `data`, 1024 bytes at a time. -/
def readLoop (file : Bytes) : ℕ → Bytes → ℕ → Bytes
  | 0, data, _ => data
  | fuel + 1, data, len =>
    let buf := (file.drop len).take 1024
    if buf.length < 1 then data else readLoop file fuel (memcpy data len buf) (len + buf.length)

/-- The loop over the strings of `strtok`, each with the bytes behind its NUL, from turn `i` on. -/
def loadLoop (w : ℕ → RegEnv) : ℕ → RegState → ℤ → List (Bytes × Bytes) → Option (RegState × ℤ)
  | _, s, ret, [] => some (s, ret)
  | i, s, ret, q :: rest =>
    let pch := q.1 ++ 0 :: q.2
    if 30 < strlen pch then
      if pch.length < lenDevid then none
      else
        match regToTableHeap s ((w i).call pch) with
        | none => none
        | some (s, ret) => loadLoop w (i + 1) s ret rest
    else loadLoop w i s ret rest

/-- `load_reg_list` on a file that is opened and read, and the table at the start of the server. -/
def loadRegList (w : ℕ → RegEnv) (file : Bytes) : Option (RegState × ℤ) :=
  if file.length < 1 then some (RegState.empty, 0)
  else
    let data := readLoop file (file.length + 1) (zeros (file.length + 1)) 0
    loadLoop w 0 RegState.empty 0 (stringsFrom isLineEnd [] data)

/-- The walk of `hl_track_msg`: the place of the item that is met. -/
def trackWalkHeap (h : ByteHeap) (id : Bytes) (n : ℕ) : ℕ → List MsgItem → Option (Option ℕ)
  | _, [] => some none
  | j, hitem :: rest =>
    match h.block hitem.msg with
    | none => none
    | some m =>
      if strncmp lenDevid id (devId m) = 0 then some (some j)
      else if n ≤ j + 1 then some none
      else trackWalkHeap h id n (j + 1) rest

/-- `hl_track_msg`. -/
def hlTrackMsgHeap (s : RegState) (msg : Bytes) (addr : SockAddrIn) : Option (RegState × ℤ) :=
  let hn := hashId (devId msg)
  let hi := s.table hn
  if hi.n ≠ 0 then
    match trackWalkHeap s.heap (devId msg) hi.n 0 hi.group with
    | none => none
    | some none => some (s, 0)
    | some (some j) =>
      let group := hi.group.modify j fun hitem => { hitem with ipv4 := addr }
      let hi := ⟨hi.n, group, by rw [List.length_modify, hi.counted]⟩
      some ({ s with table := Function.update s.table hn hi }, 1)
  else some (s, 0)

/-! ### What the list says -/

/-- The ids of the lines longer than 30 characters; an id has `LEN_DEVID` characters at most. -/
def listIds (file : Bytes) : List Bytes :=
  ((tokensFrom isLineEnd [] file).filter fun l => 30 < l.length).map fun l => l.take lenDevid

/-- The message of an item is live and has the id. -/
def RegState.Stored (s : RegState) (it : MsgItem) (id : Bytes) : Prop :=
  ∃ b, s.heap.block it.msg = some b ∧ idKey (devId b) = id

/-- The table holds the ids of the list, each once, and nothing else, and a message with such an
id is found. -/
structure RegState.Loaded (s : RegState) (ids : List Bytes) : Prop where
  only : ∀ i, ∀ it ∈ (s.table i).group, ∃ id ∈ ids, s.Stored it id
  once : ∀ id ∈ ids, ∃! x : ℕ × ℕ, ∃ it, (s.table x.1).group[x.2]? = some it ∧ s.Stored it id
  found : ∀ id ∈ ids, ∀ msg addr, sizeofMsgCommon ≤ msg.length → idKey (devId msg) = id →
    ∃ s', hlTrackMsgHeap s msg addr = some (s', 1)

/-- Every long line has `LEN_DEVID` bytes up to the end of the loaded block. -/
def CopiesFit (file : Bytes) : Prop :=
  ∀ q ∈ stringsFrom isLineEnd [] (file ++ [0]), 30 < q.1.length →
    lenDevid ≤ q.1.length + 1 + q.2.length

/-- Different ids have different buckets. -/
def Apart (ids : List Bytes) : Prop :=
  ∀ id ∈ ids, ∀ id' ∈ ids, homeOf id = homeOf id' → id = id'

/-- The registration of an id that no line before has leaves its message where it is. -/
def KeysStay (w : ℕ → RegEnv) (ids : List Bytes) : Prop :=
  ∀ k id, ids[k]? = some id → id ∉ ids.take k → (w k).rsa = none ∨ (w k).moves = false

/-- The copies fit; no id is lost behind a NUL byte; every id is shorter than its field; two ids
do not share a bucket; and no message moves. -/
structure ListGood (w : ℕ → RegEnv) (file : Bytes) : Prop where
  fit : CopiesFit file
  nul : ∀ id, id ∈ listIds file ↔ id ∈ listIds (text file)
  short : ∀ id ∈ listIds file, id.length < lenDevid
  apart : Apart (listIds file)
  stay : KeysStay w (listIds (text file))

/-! ### The text and its lines -/

theorem readLoop_eq (file : Bytes) {fuel len : ℕ} (hlen : len ≤ file.length)
    (hfuel : file.length - len < fuel) :
    readLoop file fuel (file.take len ++ zeros (file.length + 1 - len)) len = file ++ [0] := by
  induction fuel generalizing len with
  | zero => omega
  | succ fuel ih =>
    rw [readLoop]
    have hbuf : ((file.drop len).take 1024).length = min 1024 (file.length - len) := by simp
    by_cases hend : file.length = len
    · rw [if_pos (by rw [hbuf]; omega), ← hend, List.take_length,
        show file.length + 1 - file.length = 1 by omega]
      rfl
    · rw [if_neg (by rw [hbuf]; omega)]
      have hnext := @ih (len + ((file.drop len).take 1024).length)
        (by rw [hbuf]; omega) (by rw [hbuf]; omega)
      have hfront : (file.take len).length = len := by
        rw [List.length_take]
        omega
      have htake : file.take (len + ((file.drop len).take 1024).length) =
          file.take len ++ (file.drop len).take 1024 := by
        have hsame : (file.drop len).take ((file.drop len).take 1024).length =
            (file.drop len).take 1024 := by
          rw [List.take_eq_take_iff, hbuf, List.length_drop]
          omega
        rw [List.take_add, hsame]
      have hcopy := memcpy_append_zeros (file.take len) ((file.drop len).take 1024)
        (file.length + 1 - len)
      rw [hfront] at hcopy
      rw [← hnext, hcopy, htake, List.append_assoc, Nat.sub_add_eq]

theorem loadRegList_eq (w : ℕ → RegEnv) (file : Bytes) :
    loadRegList w file =
      loadLoop w 0 RegState.empty 0 (stringsFrom isLineEnd [] (file ++ [0])) := by
  unfold loadRegList
  by_cases hempty : file.length < 1
  · have hnil : file = [] := List.length_eq_zero_iff.mp (by omega)
    rw [if_pos hempty, hnil]
    rfl
  · have hread := @readLoop_eq file (file.length + 1) 0 (Nat.zero_le _) (by omega)
    rw [List.take_zero, List.nil_append, Nat.sub_zero] at hread
    rw [if_neg hempty, hread]

/-- A string that `strtok` leaves has no NUL byte. -/
theorem stringsFrom_noNul {cur s : Bytes} (hcur : (0 : UInt8) ∉ cur) {q : Bytes × Bytes}
    (hq : q ∈ stringsFrom isLineEnd cur s) : (0 : UInt8) ∉ q.1 := by
  induction s generalizing cur with
  | nil =>
    rw [stringsFrom] at hq
    split_ifs at hq
    · cases hq
    · rw [List.mem_singleton.mp hq]
      exact hcur
  | cons c s ih =>
    rw [stringsFrom] at hq
    split_ifs at hq with hc
    · cases hq
    · rw [List.mem_singleton.mp hq]
      exact hcur
    · exact ih (by simp) hq
    · rcases List.mem_cons.mp hq with rfl | hq
      · exact hcur
      · exact ih (by simp) hq
    · apply ih _ hq
      rw [List.mem_append, List.mem_singleton, not_or]
      exact ⟨hcur, fun h => hc h.symm⟩

/-- The strings of the block are the lines of the text in it. -/
theorem stringsFrom_lines (file : Bytes) :
    (stringsFrom isLineEnd [] (file ++ [0])).map Prod.fst =
      tokensFrom isLineEnd [] (text file) := by
  have hnoNul : (0 : UInt8) ∉ text file := by
    intro h
    simpa using List.mem_takeWhile_imp h
  have hsplit : ∃ z, file ++ [0] = text file ++ 0 :: z := by
    unfold text
    cases hrest : file.dropWhile (· != 0) with
    | nil =>
      have hall := List.takeWhile_append_dropWhile (p := (· != 0)) (l := file)
      rw [hrest, List.append_nil] at hall
      exact ⟨[], by rw [hall]⟩
    | cons c z =>
      have hc : c = 0 := by
        have hne : file.dropWhile (· != 0) ≠ [] := by
          rw [hrest]
          exact List.cons_ne_nil c z
        have hhead := List.head_dropWhile_not (· != 0) hne
        simpa [hrest] using hhead
      refine ⟨z ++ [0], ?_⟩
      conv_lhs => rw [← List.takeWhile_append_dropWhile (p := (· != 0)) (l := file)]
      rw [hrest, hc, List.append_assoc, List.cons_append]
  obtain ⟨z, hz⟩ := hsplit
  rw [hz, stringsFrom_fst hnoNul]

/-! ### The id of a line -/

theorem idKey_text {k : Bytes} (h : (0 : UInt8) ∉ k) (hlen : k.length ≤ lenDevid) (rest : Bytes) :
    idKey (k ++ 0 :: rest) = k := by
  have hstr : strlen (k ++ 0 :: rest) = k.length := by
    have htext := text_append_nul h rest
    unfold text at htext
    rw [strlen, htext]
  by_cases hshort : k.length < lenDevid
  · rw [idKey, cstr_eq_takeWhile (by rw [hstr]; exact hshort)]
    exact text_append_nul h rest
  · rw [idKey, cstr_eq_take_of_le_strlen (by rw [hstr]; omega)]
    exact List.take_left' (by omega)

/-- The bucket of a text depends on the text alone where a NUL byte ends it. -/
theorem hashId_text {k : Bytes} (h : (0 : UInt8) ∉ k) (hlen : k.length ≤ maxMsg) (rest : Bytes) :
    hashId (k ++ 0 :: rest) = homeOf k := by
  have hstr : strlen (k ++ 0 :: rest) = k.length := by
    have htext := text_append_nul h rest
    unfold text at htext
    rw [strlen, htext]
  rw [hashId, hstr, Nat.min_eq_right hlen, homeOf]
  apply hashFunc_eq_of_take
  rw [List.take_left, List.take_length]

theorem devId_listMsg (t z : Bytes) :
    ∃ rest, devId (listMsg (t ++ 0 :: z)) = t.take lenDevid ++ 0 :: rest := by
  have hmsg := memcpy_append_zeros (zeros 2) ((t ++ 0 :: z).take lenDevid) 98
  have hdev : devId (listMsg (t ++ 0 :: z)) = (t ++ 0 :: z).take lenDevid ++
      zeros (98 - ((t ++ 0 :: z).take lenDevid).length) := by
    rw [zeros_length] at hmsg
    rw [devId, listMsg, show zeros sizeofMsgCommon = zeros 2 ++ zeros 98 from rfl, hmsg]
    exact List.drop_left' (zeros_length 2)
  by_cases hshort : t.length < lenDevid
  · refine ⟨z.take (lenDevid - t.length - 1) ++
      zeros (98 - ((t ++ 0 :: z).take lenDevid).length), ?_⟩
    rw [hdev, List.take_append, List.take_of_length_le hshort.le]
    obtain ⟨j, hj⟩ : ∃ j, lenDevid - t.length = j + 1 := ⟨lenDevid - t.length - 1, by omega⟩
    rw [hj, List.take_succ_cons, List.append_assoc, List.cons_append, Nat.add_sub_cancel]
  · refine ⟨zeros 57, ?_⟩
    have htake : (t ++ 0 :: z).take lenDevid = t.take lenDevid := by
      rw [List.take_append_of_le_length (by omega)]
    have hlen : (t.take lenDevid).length = 40 := by
      rw [List.length_take]
      simp only [lenDevid] at *
      omega
    rw [hdev, htake, hlen]
    rfl

/-- The id that a message registers. -/
def RegCall.id (c : RegCall) : Bytes := idKey (devId c.msg)

/-- A line is registered under its id, in the bucket of the id. -/
theorem call_id (e : RegEnv) {t : Bytes} (h : (0 : UInt8) ∉ t) (z : Bytes) :
    (e.call (t ++ 0 :: z)).id = t.take lenDevid ∧
      (e.call (t ++ 0 :: z)).bucket = homeOf (t.take lenDevid) := by
  obtain ⟨rest, hdev⟩ := devId_listMsg t z
  have hnoNul : (0 : UInt8) ∉ t.take lenDevid := fun hmem => h (List.mem_of_mem_take hmem)
  have hlen := List.length_take_le lenDevid t
  constructor
  · change idKey (devId (listMsg (t ++ 0 :: z))) = _
    rw [hdev, idKey_text hnoNul hlen]
  · change hashId (devId (listMsg (t ++ 0 :: z))) = _
    rw [hdev, hashId_text hnoNul (by simp only [maxMsg, lenDevid] at *; omega)]

/-! ### A run of registrations -/

/-- The calls for the long strings, from turn `i` on. -/
def listCalls (w : ℕ → RegEnv) : ℕ → List (Bytes × Bytes) → List RegCall
  | _, [] => []
  | i, q :: rest =>
    if 30 < q.1.length then (w i).call (q.1 ++ 0 :: q.2) :: listCalls w (i + 1) rest
    else listCalls w i rest

/-- The loop ends exactly when every copy fits and the registrations have an outcome. -/
theorem loadLoop_iff (w : ℕ → RegEnv) {qs : List (Bytes × Bytes)}
    (hqs : ∀ q ∈ qs, (0 : UInt8) ∉ q.1) (i : ℕ) (s s' : RegState) (ret : ℤ) :
    (∃ ret', loadLoop w i s ret qs = some (s', ret')) ↔
      (∀ q ∈ qs, 30 < q.1.length → lenDevid ≤ q.1.length + 1 + q.2.length) ∧
        run regStep s (listCalls w i qs) = some s' := by
  induction qs generalizing i s ret with
  | nil => simp [loadLoop, listCalls]
  | cons q rest ih =>
    have hrest : ∀ q' ∈ rest, (0 : UInt8) ∉ q'.1 := fun q' h => hqs q' (List.mem_cons_of_mem q h)
    have hstr : strlen (q.1 ++ 0 :: q.2) = q.1.length := by
      have htext := text_append_nul (hqs q List.mem_cons_self) q.2
      unfold text at htext
      rw [strlen, htext]
    have hlen : (q.1 ++ 0 :: q.2).length = q.1.length + 1 + q.2.length := by
      rw [List.length_append, List.length_cons]
      omega
    rw [loadLoop, listCalls, List.forall_mem_cons, hstr, hlen]
    by_cases hlong : 30 < q.1.length
    · rw [if_pos hlong, if_pos hlong, run_cons]
      by_cases hfit : q.1.length + 1 + q.2.length < lenDevid
      · rw [if_pos hfit]
        have hnot : ¬ lenDevid ≤ q.1.length + 1 + q.2.length := by omega
        simp [hlong, hnot]
      · rw [if_neg hfit]
        have hle : lenDevid ≤ q.1.length + 1 + q.2.length := by omega
        unfold regStep
        cases hreg : regToTableHeap s ((w i).call (q.1 ++ 0 :: q.2)) with
        | none => simp
        | some r =>
          have hnext := ih hrest (i + 1) r.1 r.2
          simp only [Option.map_some, Option.bind_some, hle, imp_true_iff, true_and]
          exact hnext
    · rw [if_neg hlong, if_neg hlong, ih hrest i s ret]
      simp [hlong]

/-- What the registrations so far left: in each bucket one live message at most, whose id is one
of those registered, and each of these. -/
structure RegState.Holding (s : RegState) (done : List Bytes) : Prop where
  only : ∀ i, ∀ it ∈ (s.table i).group, ∃ id ∈ done, s.Stored it id ∧ homeOf id = i
  one : ∀ i, (s.table i).group.length ≤ 1
  all : ∀ id ∈ done, ∃ it ∈ (s.table (homeOf id)).group, s.Stored it id

theorem holding_empty : RegState.empty.Holding [] where
  only := by
    intro i it hit
    simp [RegState.empty] at hit
  one := by simp [RegState.empty]
  all := by simp

/-- An id is known exactly when it was registered. -/
theorem known_iff_mem {s : RegState} {done : List Bytes} (hs : s.Holding done) {c : RegCall}
    (hc : c.bucket = homeOf c.id) : s.Known c ↔ c.id ∈ done := by
  constructor
  · rintro ⟨it, hit, b, hb, hcmp⟩
    obtain ⟨id, hid, ⟨b', hb', hkey⟩, _⟩ := hs.only _ it hit
    rw [hb] at hb'
    rw [strncmp_id_iff, Option.some.inj hb', hkey] at hcmp
    rw [RegCall.id, hcmp]
    exact hid
  · intro hmem
    obtain ⟨it, hit, b, hb, hkey⟩ := hs.all _ hmem
    refine ⟨it, by rw [hc]; exact hit, b, hb, ?_⟩
    rw [strncmp_id_iff, hkey, RegCall.id]

/-- An item whose message is gone, at an address that is not handed out again. -/
def RegState.Dangling (s : RegState) : Prop :=
  ∃ i, ∃ it ∈ (s.table i).group, s.heap.block it.msg = none ∧ it.msg < s.heap.next

theorem putPubkeyMsgHeap_next_le {h h' : ByteHeap} {m : ℕ} {c : RegCall}
    (hp : putPubkeyMsgHeap h m c = some h') : h.next ≤ h'.next := by
  unfold putPubkeyMsgHeap at hp
  cases hrsa : c.rsa with
  | none =>
    simp only [hrsa, Option.some.injEq] at hp
    rw [hp]
  | some rsa =>
    simp only [hrsa, Option.bind_eq_bind, Option.bind_eq_some_iff] at hp
    obtain ⟨⟨m', h1⟩, hre, h2, hst2, h3, hst3, hst4⟩ := hp
    exact (ByteHeap.realloc_next_le hre).trans ((ByteHeap.store_next_le hst2).trans
      ((ByteHeap.store_next_le hst3).trans (ByteHeap.store_next_le hst4)))

/-- An address that was handed out is below those that will be. -/
theorem newMsg_next {h h' : ByteHeap} {size : ℕ} {com : Bytes} {c : RegCall}
    (hn : newMsg h size com c = some h') : h.next < h'.next := by
  simp only [newMsg, Option.bind_eq_bind, Option.bind_eq_some_iff] at hn
  obtain ⟨h1, hst, hput⟩ := hn
  have hstore := ByteHeap.store_next_le hst
  rw [ByteHeap.malloc_next] at hstore
  exact (Nat.lt_of_succ_le hstore).trans_le (putPubkeyMsgHeap_next_le hput)

/-- Storing a key keeps the id. -/
theorem keyedBlock_id {b : Bytes} {n : ℕ} (hb : b.length = n) (hn : sizeofMsgCommon ≤ n)
    (junk : Bytes) (rsa : RsaWord) : idKey (devId (keyedBlock b n junk rsa)) = idKey (devId b) := by
  apply idKey_devId_congr
  have hkeep := keyedBlock_take hb hn junk rsa
  have hle : offSecond ≤ n := le_trans (by decide) hn
  have htake : (keyedBlock b n junk rsa).take offSecond =
      ((keyedBlock b n junk rsa).take n).take offSecond := by
    rw [List.take_take, Nat.min_eq_left hle]
  rw [htake, hkeep, List.append_assoc, List.append_assoc, List.take_append_of_le_length,
    List.take_take]
  · rfl
  · simp only [List.length_take, sizeofMsgCommon] at *
    simp
    omega

/-- The block of a new item has the id of its registration, unless it moved. -/
theorem newMsg_id (h : ByteHeap) {c : RegCall} {h' : ByteHeap}
    (hnew : newMsg h c.n c.msg c = some h') :
    (c.rsa = none ∨ c.moves = false → ∃ b, h'.block h.next = some b ∧ idKey (devId b) = c.id) ∧
      (¬ (c.rsa = none ∨ c.moves = false) → h'.block h.next = none) := by
  obtain ⟨h'', hnew', _, hblock⟩ := newMsg_cases h c
  rw [hnew] at hnew'
  rw [← Option.some.inj hnew'] at hblock
  have hlen : (c.msg.take c.n).length = c.n := by simp [c.n_le]
  have hid : idKey (devId (c.msg.take c.n)) = c.id := by
    apply idKey_devId_congr
    rw [List.take_take, Nat.min_eq_left (le_trans (by decide) c.header_le)]
  cases hrsa : c.rsa with
  | none =>
    rw [hrsa] at hblock
    exact ⟨fun _ => ⟨_, hblock, hid⟩, fun hno => (hno (.inl rfl)).elim⟩
  | some rsa =>
    rw [hrsa] at hblock
    cases hmoves : c.moves with
    | false =>
      rw [hmoves] at hblock
      refine ⟨fun _ => ⟨_, hblock, ?_⟩, fun hno => (hno (.inr rfl)).elim⟩
      rw [keyedBlock_id hlen c.header_le, hid]
    | true =>
      rw [hmoves] at hblock
      exact ⟨fun hok => by simp at hok, fun _ => hblock⟩

/-- A new item in an empty bucket. -/
theorem holding_link {s : RegState} {done : List Bytes} (hs : s.Holding done) {c : RegCall}
    (hc : c.bucket = homeOf c.id) (hnil : (s.table c.bucket).group = [])
    (hnew : ∀ id ∈ done, homeOf id ≠ homeOf c.id) {h : ByteHeap}
    (hold : ∀ x, x < s.heap.next → h.block x = s.heap.block x)
    (hid : ∃ b, h.block s.heap.next = some b ∧ idKey (devId b) = c.id) :
    (s.link c.bucket c.msg c.n h).Holding (c.id :: done) := by
  have hkeep : ∀ it id, s.Stored it id → (s.link c.bucket c.msg c.n h).Stored it id := by
    rintro it id ⟨b, hb, hkey⟩
    exact ⟨b, (hold _ (s.heap.lt_next hb)).trans hb, hkey⟩
  have hself : ((s.link c.bucket c.msg c.n h).table c.bucket).group =
      [⟨noAddr, s.heap.next, c.msg.take c.n⟩] := by simp [RegState.link, hnil]
  have hother : ∀ i, i ≠ c.bucket →
      ((s.link c.bucket c.msg c.n h).table i).group = (s.table i).group := by
    intro i hi
    simp [RegState.link, Function.update_of_ne hi]
  constructor
  · intro i it hit
    by_cases hi : i = c.bucket
    · rw [hi, hself, List.mem_singleton] at hit
      rw [hit]
      exact ⟨c.id, List.mem_cons_self, hid, by rw [hi, hc]⟩
    · rw [hother i hi] at hit
      obtain ⟨id, hmem, hstored, hhome⟩ := hs.only i it hit
      exact ⟨id, List.mem_cons_of_mem _ hmem, hkeep it id hstored, hhome⟩
  · intro i
    by_cases hi : i = c.bucket
    · rw [hi, hself]
      exact le_rfl
    · rw [hother i hi]
      exact hs.one i
  · intro id hmem
    rcases List.mem_cons.mp hmem with rfl | hmem
    · rw [← hc, hself]
      exact ⟨_, List.mem_cons_self, hid⟩
    · rw [hother _ (by rw [hc]; exact hnew id hmem)]
      obtain ⟨it, hit, hstored⟩ := hs.all id hmem
      exact ⟨it, hit, hkeep it id hstored⟩

/-- What a registration does to a table that holds `done`. -/
theorem regStep_holding {s : RegState} {done : List Bytes} (hs : s.Holding done) {c : RegCall}
    (hc : c.bucket = homeOf c.id) :
    (c.id ∈ done ∧ regStep s c = some s) ∨
    (c.id ∉ done ∧ (∃ id ∈ done, homeOf id = homeOf c.id) ∧ regStep s c = none) ∨
    (c.id ∉ done ∧ (∀ id ∈ done, homeOf id ≠ homeOf c.id) ∧
      ∃ s', regStep s c = some s' ∧
        (c.rsa = none ∨ c.moves = false → s'.Holding (c.id :: done)) ∧
        (¬ (c.rsa = none ∨ c.moves = false) → s'.Dangling)) := by
  have hlive : ∀ it ∈ (s.table c.bucket).group, ∃ b, s.heap.block it.msg = some b := by
    intro it hit
    obtain ⟨id, _, ⟨b, hb, _⟩, _⟩ := hs.only _ it hit
    exact ⟨b, hb⟩
  have hknown := known_iff_mem hs hc
  have hfull : (s.table c.bucket).group ≠ [] ↔ ∃ id ∈ done, homeOf id = homeOf c.id := by
    rw [hc]
    constructor
    · intro hne
      obtain ⟨it, hit⟩ := List.exists_mem_of_ne_nil _ hne
      obtain ⟨id, hid, _, hhome⟩ := hs.only _ it hit
      exact ⟨id, hid, hhome⟩
    · rintro ⟨id, hid, hhome⟩
      obtain ⟨it, hit, _⟩ := hs.all id hid
      rw [hhome] at hit
      exact List.ne_nil_of_mem hit
  rcases regToTableHeap_cases_of_live c hlive with
    ⟨hk, hr⟩ | ⟨hk, hne, hr⟩ | ⟨hk, hnil, h, hnew, hr⟩
  · exact .inl ⟨hknown.mp hk, by simp [regStep, hr]⟩
  · exact .inr (.inl ⟨fun hmem => hk (hknown.mpr hmem), hfull.mp hne, by simp [regStep, hr]⟩)
  · have hapart : ∀ id ∈ done, homeOf id ≠ homeOf c.id := by
      intro id hid hhome
      exact hfull.mpr ⟨id, hid, hhome⟩ hnil
    have hstep : regStep s c = some (s.link c.bucket c.msg c.n h) := by simp [regStep, hr]
    obtain ⟨h', hnew', hold, _⟩ := newMsg_cases s.heap c
    rw [hnew] at hnew'
    rw [← Option.some.inj hnew'] at hold
    obtain ⟨hlives, hdies⟩ := newMsg_id s.heap hnew
    refine .inr (.inr ⟨fun hmem => hk (hknown.mpr hmem), hapart, _, hstep, ?_, ?_⟩)
    · intro hok
      exact holding_link hs hc hnil hapart hold (hlives hok)
    · intro hmoved
      exact ⟨c.bucket, ⟨noAddr, s.heap.next, c.msg.take c.n⟩, by simp [RegState.link],
        hdies hmoved, newMsg_next hnew⟩

/-- A message that is gone stays gone. -/
theorem regStep_dangling {s s' : RegState} {c : RegCall} (h : regStep s c = some s')
    (hs : s.Dangling) : s'.Dangling := by
  obtain ⟨i, it, hit, hgone, hlt⟩ := hs
  unfold regStep regToTableHeap at h
  by_cases hz : (s.table c.bucket).n = 0
  · obtain ⟨h1, hnew, hold, _⟩ := newMsg_cases s.heap c
    simp [hz, hnew] at h
    rw [← h]
    refine ⟨i, it, ?_, (hold _ hlt).trans hgone, hlt.trans (newMsg_next hnew)⟩
    by_cases hi : i = c.bucket
    · subst hi
      simp [RegState.link, hit]
    · simp [RegState.link, Function.update_of_ne hi, hit]
  · have hlen : c.n ≤ (putTimeToMsg c.msg c.t).length := by
      rw [putTimeToMsg_length (c.header_le.trans c.n_le)]
      exact c.n_le
    cases hw : chainWalkHeap s.heap (devId c.msg) (s.table c.bucket).n 0
        (s.table c.bucket).group with
    | none => simp [hz, hw] at h
    | some found =>
      cases found with
      | true =>
        simp [hz, hw] at h
        rw [← h]
        exact ⟨i, it, hit, hgone, hlt⟩
      | false => simp [hz, hw, newMsg_small s.heap hlen] at h

theorem run_dangling {s s' : RegState} {cs : List RegCall} (h : run regStep s cs = some s')
    (hs : s.Dangling) : s'.Dangling := by
  induction cs generalizing s with
  | nil =>
    rw [run_nil, Option.some.injEq] at h
    exact h ▸ hs
  | cons c cs ih =>
    rw [run_cons, Option.bind_eq_some_iff] at h
    obtain ⟨s1, hstep, hrest⟩ := h
    exact ih hrest (regStep_dangling hstep hs)

/-- Every call is of an id registered before, or of one in a bucket of its own whose message
stays. -/
def CallsGood : List Bytes → List RegCall → Prop
  | _, [] => True
  | done, c :: cs =>
    (c.id ∈ done ∨ (∀ id ∈ done, homeOf id ≠ homeOf c.id) ∧ (c.rsa = none ∨ c.moves = false)) ∧
      CallsGood (c.id :: done) cs

/-- A run of good calls ends holding their ids, and any other run that ends has lost a message. -/
theorem run_holding {s : RegState} {done : List Bytes} (hs : s.Holding done) {cs : List RegCall}
    (hcs : ∀ c ∈ cs, c.bucket = homeOf c.id) :
    (CallsGood done cs →
      ∃ s', run regStep s cs = some s' ∧ s'.Holding ((cs.map RegCall.id).reverse ++ done)) ∧
    (¬ CallsGood done cs → ∀ s', run regStep s cs = some s' → s'.Dangling) := by
  induction cs generalizing s done with
  | nil => exact ⟨fun _ => ⟨s, rfl, hs⟩, fun hbad => (hbad trivial).elim⟩
  | cons c cs ih =>
    have hrest : ∀ c' ∈ cs, c'.bucket = homeOf c'.id :=
      fun c' h => hcs c' (List.mem_cons_of_mem c h)
    have hids : ((c :: cs).map RegCall.id).reverse ++ done =
        (cs.map RegCall.id).reverse ++ c.id :: done := by simp
    rw [hids, run_cons, CallsGood]
    rcases regStep_holding hs (hcs c List.mem_cons_self) with
      ⟨hmem, hr⟩ | ⟨hmem, ⟨id, hid, hhome⟩, hr⟩ | ⟨hmem, hapart, s1, hr, hkeep, hlose⟩
    · have hs' : s.Holding (c.id :: done) := by
        refine ⟨?_, hs.one, ?_⟩
        · intro i it hit
          obtain ⟨id, hid, hrest⟩ := hs.only i it hit
          exact ⟨id, List.mem_cons_of_mem _ hid, hrest⟩
        · intro id hid
          rcases List.mem_cons.mp hid with rfl | hid
          · exact hs.all _ hmem
          · exact hs.all id hid
      obtain ⟨hgood, hbad⟩ := ih hs' hrest
      rw [hr, Option.bind_some]
      refine ⟨fun h => hgood h.2, fun h => hbad fun hg => h ⟨.inl hmem, hg⟩⟩
    · rw [hr]
      refine ⟨?_, fun _ s' h => by cases h⟩
      rintro ⟨hmem' | ⟨hapart, _⟩, _⟩
      · exact (hmem hmem').elim
      · exact (hapart id hid hhome).elim
    · rw [hr, Option.bind_some]
      by_cases hstay : c.rsa = none ∨ c.moves = false
      · obtain ⟨hgood, hbad⟩ := ih (hkeep hstay) hrest
        exact ⟨fun h => hgood h.2, fun h => hbad fun hg => h ⟨.inr ⟨hapart, hstay⟩, hg⟩⟩
      · refine ⟨fun h => ?_, fun _ s' hrun => run_dangling hrun (hlose hstay)⟩
        rcases h.1 with hmem' | ⟨_, hstay'⟩
        · exact (hmem hmem').elim
        · exact (hstay hstay').elim

/-- The first call of an id that is not among `done` leaves the message where it is. -/
def CallsStay (done : List Bytes) (cs : List RegCall) : Prop :=
  ∀ k c, cs[k]? = some c → c.id ∉ done → c.id ∉ (cs.map RegCall.id).take k →
    c.rsa = none ∨ c.moves = false

theorem callsStay_cons (done : List Bytes) (c : RegCall) (cs : List RegCall) :
    CallsStay done (c :: cs) ↔
      (c.id ∉ done → c.rsa = none ∨ c.moves = false) ∧ CallsStay (c.id :: done) cs := by
  constructor
  · intro h
    refine ⟨fun hmem => h 0 c rfl hmem (by simp), ?_⟩
    intro k c' hk hmem htake
    rw [List.mem_cons, not_or] at hmem
    apply h (k + 1) c' (by simpa using hk) hmem.2
    rw [List.map_cons, List.take_succ_cons, List.mem_cons, not_or]
    exact ⟨hmem.1, htake⟩
  · rintro ⟨hfirst, hrest⟩ k c' hk hmem htake
    cases k with
    | zero =>
      obtain rfl : c = c' := by simpa using hk
      exact hfirst hmem
    | succ k =>
      rw [List.map_cons, List.take_succ_cons, List.mem_cons, not_or] at htake
      apply hrest k c' (by simpa using hk) _ htake.2
      rw [List.mem_cons, not_or]
      exact ⟨htake.1, hmem⟩

theorem apart_cons (id : Bytes) (ids : List Bytes) :
    Apart (id :: ids) ↔
      Apart ids ∧ (id ∈ ids ∨ ∀ id' ∈ ids, homeOf id' ≠ homeOf id) := by
  constructor
  · intro h
    refine ⟨fun x hx y hy => h x (List.mem_cons_of_mem _ hx) y (List.mem_cons_of_mem _ hy), ?_⟩
    by_cases hmem : id ∈ ids
    · exact .inl hmem
    · right
      intro id' hid' hhome
      have heq := h id' (List.mem_cons_of_mem _ hid') id List.mem_cons_self hhome
      exact hmem (heq ▸ hid')
  · rintro ⟨h, hid⟩ x hx y hy hhome
    have hsame : ∀ z ∈ ids, homeOf z = homeOf id → z = id := by
      intro z hz hzid
      rcases hid with hmem | hno
      · exact h z hz id hmem hzid
      · exact (hno z hz hzid).elim
    rcases List.mem_cons.mp hx with rfl | hx' <;> rcases List.mem_cons.mp hy with rfl | hy'
    · rfl
    · exact (hsame y hy' hhome.symm).symm
    · exact hsame x hx' hhome
    · exact h x hx' y hy' hhome

/-- Good calls, without the order they come in. -/
theorem callsGood_iff (done : List Bytes) (cs : List RegCall) :
    (Apart done ∧ CallsGood done cs) ↔
      Apart ((cs.map RegCall.id).reverse ++ done) ∧ CallsStay done cs := by
  induction cs generalizing done with
  | nil => simp [CallsGood, CallsStay]
  | cons c cs ih =>
    have hids : ((c :: cs).map RegCall.id).reverse ++ done =
        (cs.map RegCall.id).reverse ++ c.id :: done := by simp
    rw [hids, callsStay_cons, ← and_assoc, and_right_comm, ← ih, CallsGood, apart_cons]
    tauto

/-! ### The table after the list -/

theorem listCalls_ids (w : ℕ → RegEnv) {qs : List (Bytes × Bytes)}
    (hqs : ∀ q ∈ qs, (0 : UInt8) ∉ q.1) (i : ℕ) :
    (listCalls w i qs).map RegCall.id =
        ((qs.map Prod.fst).filter fun l => 30 < l.length).map (fun l => l.take lenDevid) ∧
      ∀ c ∈ listCalls w i qs, c.bucket = homeOf c.id := by
  induction qs generalizing i with
  | nil => simp [listCalls]
  | cons q rest ih =>
    have hrest : ∀ q' ∈ rest, (0 : UInt8) ∉ q'.1 := fun q' h => hqs q' (List.mem_cons_of_mem q h)
    obtain ⟨hid, hbucket⟩ := call_id (w i) (hqs q List.mem_cons_self) q.2
    rw [listCalls]
    by_cases hlong : 30 < q.1.length
    · obtain ⟨hids, hbuckets⟩ := ih hrest (i + 1)
      rw [if_pos hlong, List.map_cons, hids, hid]
      refine ⟨by simp [hlong], ?_⟩
      intro c hc
      rcases List.mem_cons.mp hc with rfl | hc
      · rw [hbucket, hid]
      · exact hbuckets c hc
    · obtain ⟨hids, hbuckets⟩ := ih hrest i
      rw [if_neg hlong, hids]
      exact ⟨by simp [hlong], hbuckets⟩

/-- The call for the `k`-th long line has the outcomes of its turn. -/
theorem listCalls_env (w : ℕ → RegEnv) (i : ℕ) {qs : List (Bytes × Bytes)} {k : ℕ} {c : RegCall}
    (h : (listCalls w i qs)[k]? = some c) :
    c.rsa = (w (i + k)).rsa ∧ c.moves = (w (i + k)).moves := by
  induction qs generalizing i k with
  | nil => simp [listCalls] at h
  | cons q rest ih =>
    rw [listCalls] at h
    split_ifs at h with hlong
    · cases k with
      | zero =>
        obtain rfl : (w i).call (q.1 ++ 0 :: q.2) = c := by simpa using h
        exact ⟨rfl, rfl⟩
      | succ k =>
        have hnext := ih (i + 1) (by simpa using h)
        rwa [show i + 1 + k = i + (k + 1) by omega] at hnext
    · exact ih i h

theorem listCalls_stay (w : ℕ → RegEnv) (qs : List (Bytes × Bytes)) :
    CallsStay [] (listCalls w 0 qs) ↔ KeysStay w ((listCalls w 0 qs).map RegCall.id) := by
  constructor
  · intro h k id hk hnew
    rw [List.getElem?_map, Option.map_eq_some_iff] at hk
    obtain ⟨c, hc, rfl⟩ := hk
    obtain ⟨hrsa, hmoves⟩ := listCalls_env w 0 hc
    rw [Nat.zero_add] at hrsa hmoves
    rw [← hrsa, ← hmoves]
    exact h k c hc (by simp) hnew
  · intro h k c hc _ hnew
    obtain ⟨hrsa, hmoves⟩ := listCalls_env w 0 hc
    rw [Nat.zero_add] at hrsa hmoves
    rw [hrsa, hmoves]
    exact h k c.id (by rw [List.getElem?_map, hc]; rfl) hnew

/-- The walk stops at an item only for its id. -/
theorem trackWalkHeap_mem {h : ByteHeap} {id : Bytes} {n j p : ℕ} {l : List MsgItem}
    (hw : trackWalkHeap h id n j l = some (some p)) :
    ∃ it ∈ l, ∃ b, h.block it.msg = some b ∧ idKey (devId b) = idKey id := by
  induction l generalizing j with
  | nil => simp [trackWalkHeap] at hw
  | cons hitem rest ih =>
    rw [trackWalkHeap] at hw
    cases hb : h.block hitem.msg with
    | none => simp [hb] at hw
    | some m =>
      simp only [hb] at hw
      split_ifs at hw with hcmp
      · exact ⟨hitem, List.mem_cons_self, m, hb, ((strncmp_id_iff _ _).mp hcmp).symm⟩
      · cases hw
      · obtain ⟨it, hit, hstored⟩ := ih hw
        exact ⟨it, List.mem_cons_of_mem _ hit, hstored⟩

/-- What is found stands in the bucket of the message. -/
theorem hlTrackMsgHeap_found {s s' : RegState} {msg : Bytes} {addr : SockAddrIn}
    (h : hlTrackMsgHeap s msg addr = some (s', 1)) :
    ∃ it ∈ (s.table (hashId (devId msg))).group, s.Stored it (idKey (devId msg)) := by
  unfold hlTrackMsgHeap at h
  by_cases hz : (s.table (hashId (devId msg))).n = 0
  · simp [hz] at h
  · cases hw : trackWalkHeap s.heap (devId msg) (s.table (hashId (devId msg))).n 0
        (s.table (hashId (devId msg))).group with
    | none => simp [hz, hw] at h
    | some found =>
      cases found with
      | none => simp [hz, hw] at h
      | some p => exact trackWalkHeap_mem hw

/-- A message with a short id is found where the id is held. -/
theorem found_of_holding {s : RegState} {done : List Bytes} (hs : s.Holding done) {id : Bytes}
    (hid : id ∈ done) (hshort : id.length < lenDevid) {msg : Bytes} (hmsg : idKey (devId msg) = id)
    (addr : SockAddrIn) : ∃ s', hlTrackMsgHeap s msg addr = some (s', 1) := by
  have hterm : Terminated (devId msg) := (goodKey_idKey _).mp (by rw [hmsg]; exact hshort)
  have hhome : hashId (devId msg) = homeOf id := by rw [← homeOf_idKey hterm, hmsg]
  obtain ⟨it, hit, b, hb, hkey⟩ := hs.all id hid
  have hone := hs.one (homeOf id)
  have hgroup : (s.table (homeOf id)).group = [it] := by
    cases hg : (s.table (homeOf id)).group with
    | nil =>
      rw [hg] at hit
      cases hit
    | cons x rest =>
      rw [hg] at hit hone
      have hrest : rest = [] := List.length_eq_zero_iff.mp (by simpa using hone)
      rw [hrest, List.mem_singleton] at hit
      rw [hrest, hit]
  have hn : (s.table (homeOf id)).n = 1 := by
    rw [(s.table (homeOf id)).counted, hgroup]
    rfl
  have hcmp : strncmp lenDevid (devId msg) (devId b) = 0 := by
    rw [strncmp_id_iff, hmsg, hkey]
  have hwalk : trackWalkHeap s.heap (devId msg) 1 0 [it] = some (some 0) := by
    simp only [trackWalkHeap, hb, hcmp, if_true]
  simp [hlTrackMsgHeap, hhome, hn, hgroup, hwalk]

theorem header_devId {id : Bytes} (hlong : id.length = lenDevid) (type route : UInt8)
    (ntf : Bytes) : devId (header type route id ntf) = id ++ (field lenDevid ntf ++ zeros 18) := by
  have hfield : field lenDevid id = id := by
    rw [field, List.take_left' hlong]
  rw [devId, header, hfield, List.append_assoc]
  rfl

/-- One more character is another bucket. -/
theorem homeOf_append_one {id : Bytes} (hlong : id.length = lenDevid) :
    homeOf (id ++ [1]) ≠ homeOf id := by
  have hterm : hashTerm 1 40 ≠ 0 ∧ hashTerm 1 40 < hashSize := by decide
  have hbyte : byteAt (id ++ [1]) 40 = 1 := by
    rw [byteAt_append_right _ _ (by rw [hlong]), hlong]
    rfl
  have hsame : hashFunc (id ++ [1]) 40 = hashFunc id 40 := by
    apply hashFunc_eq_of_take
    rw [List.take_left' hlong, List.take_of_length_le hlong.le]
  have hlt := hashFunc_lt id 40
  rw [homeOf, homeOf, List.length_append, hlong, List.length_singleton,
    hashFunc_succ _ (by decide), hbyte, hsame]
  have hshift : ∀ x t, x < hashSize → t ≠ 0 → t < hashSize → (x + t) % hashSize ≠ x := by
    intro x t hx ht htlt
    simp only [hashSize] at *
    omega
  exact hshift _ _ hlt hterm.1 hterm.2

/-- A message whose next field goes on behind a full id is looked for elsewhere. -/
theorem not_found_of_long {s : RegState} {done : List Bytes} (hs : s.Holding done) {id : Bytes}
    (hnoNul : (0 : UInt8) ∉ id) (hlong : id.length = lenDevid) (addr : SockAddrIn) :
    idKey (devId (header msgTra gCliSrv id [1])) = id ∧
      ∀ s', hlTrackMsgHeap s (header msgTra gCliSrv id [1]) addr ≠ some (s', 1) := by
  have hdev : devId (header msgTra gCliSrv id [1]) = (id ++ [1]) ++ 0 :: zeros 56 := by
    rw [header_devId hlong, List.append_assoc]
    rfl
  have hnoNul' : (0 : UInt8) ∉ id ++ [1] := by
    rw [List.mem_append, not_or]
    exact ⟨hnoNul, by decide⟩
  have hkey : idKey (devId (header msgTra gCliSrv id [1])) = id := by
    have htext := text_append_nul hnoNul' (zeros 56)
    unfold text at htext
    have hstr : strlen (id ++ [1] ++ 0 :: zeros 56) = 41 := by
      rw [strlen, htext, List.length_append, hlong]
      rfl
    rw [hdev, idKey, cstr_eq_take_of_le_strlen (by rw [hstr]; decide), List.append_assoc,
      List.take_left' hlong]
  refine ⟨hkey, ?_⟩
  intro s' hfound
  obtain ⟨it, hit, b, hb, hid⟩ := hlTrackMsgHeap_found hfound
  obtain ⟨id', _, ⟨b', hb', hid'⟩, hhome⟩ := hs.only _ it hit
  rw [hb] at hb'
  rw [Option.some.inj hb', hid', hkey] at hid
  have hlen : (id ++ [1]).length ≤ maxMsg := by
    rw [List.length_append, hlong]
    decide
  rw [hid, hdev, hashId_text hnoNul' hlen] at hhome
  exact homeOf_append_one hlong hhome.symm

theorem RegState.Stored.unique {s : RegState} {it : MsgItem} {id id' : Bytes}
    (h : s.Stored it id) (h' : s.Stored it id') : id = id' := by
  obtain ⟨b, hb, hid⟩ := h
  obtain ⟨b', hb', hid'⟩ := h'
  rw [hb] at hb'
  rw [← hid, ← hid', Option.some.inj hb']

/-- The ids in the table are those that were registered. -/
theorem loaded_ids {s : RegState} {done ids : List Bytes} (hs : s.Holding done)
    (h : s.Loaded ids) (id : Bytes) : id ∈ ids ↔ id ∈ done := by
  constructor
  · intro hid
    obtain ⟨x, ⟨it, hit, hstored⟩, _⟩ := h.once id hid
    obtain ⟨id', hid', hstored', _⟩ := hs.only _ it (List.mem_of_getElem? hit)
    exact hstored.unique hstored' ▸ hid'
  · intro hid
    obtain ⟨it, hit, hstored⟩ := hs.all id hid
    obtain ⟨id', hid', hstored'⟩ := h.only _ it hit
    exact hstored.unique hstored' ▸ hid'

/-- A registered id is in one place of the table. -/
theorem once_of_holding {s : RegState} {done : List Bytes} (hs : s.Holding done) {id : Bytes}
    (hid : id ∈ done) :
    ∃! x : ℕ × ℕ, ∃ it, (s.table x.1).group[x.2]? = some it ∧ s.Stored it id := by
  obtain ⟨it, hit, hstored⟩ := hs.all id hid
  obtain ⟨p, hp⟩ := List.getElem?_of_mem hit
  refine ⟨(homeOf id, p), ⟨it, hp, hstored⟩, ?_⟩
  rintro ⟨i, p'⟩ ⟨it', hp', hstored'⟩
  obtain ⟨id', _, hstored'', hhome⟩ := hs.only i it' (List.mem_of_getElem? hp')
  rw [← hstored'.unique hstored''] at hhome
  have hlt := (List.getElem?_eq_some_iff.mp hp).1
  have hlt' : p' < (s.table i).group.length := (List.getElem?_eq_some_iff.mp hp').1
  have hone := hs.one (homeOf id)
  rw [← hhome] at hlt'
  rw [hhome, show p = p' by omega]

/-- The table after a run that lost no message is the one that the list describes exactly when the
ids registered are those of the list and each is short. -/
theorem loaded_iff_of_holding {s : RegState} {done : List Bytes} (hs : s.Holding done)
    (hnoNul : ∀ id ∈ done, (0 : UInt8) ∉ id) (hlen : ∀ id ∈ done, id.length ≤ lenDevid)
    (ids : List Bytes) :
    s.Loaded ids ↔ (∀ id, id ∈ ids ↔ id ∈ done) ∧ ∀ id ∈ ids, id.length < lenDevid := by
  constructor
  · intro h
    refine ⟨loaded_ids hs h, ?_⟩
    intro id hid
    have hmem := (loaded_ids hs h id).mp hid
    by_contra hlong
    have heq : id.length = lenDevid := by
      have := hlen id hmem
      omega
    obtain ⟨hkey, hnot⟩ := not_found_of_long hs (hnoNul id hmem) heq noAddr
    obtain ⟨s', hfound⟩ := h.found id hid _ noAddr (by simp [header, field]) hkey
    exact hnot s' hfound
  · rintro ⟨hsame, hshort⟩
    constructor
    · intro i it hit
      obtain ⟨id, hid, hstored, _⟩ := hs.only i it hit
      exact ⟨id, (hsame id).mpr hid, hstored⟩
    · exact fun id hid => once_of_holding hs ((hsame id).mp hid)
    · intro id hid msg addr _ hmsg
      exact found_of_holding hs ((hsame id).mp hid) (hshort id hid) hmsg addr

/-- The ids that the lines of the loaded text give, the last one first, have no NUL and the length
of their field at most. -/
theorem listIds_text {file id : Bytes} (h : id ∈ (listIds (text file)).reverse) :
    (0 : UInt8) ∉ id ∧ id.length ≤ lenDevid := by
  rw [List.mem_reverse, listIds, ← stringsFrom_lines] at h
  obtain ⟨l, hl, rfl⟩ := List.mem_map.mp h
  obtain ⟨q, hq, rfl⟩ := List.mem_map.mp (List.mem_of_mem_filter hl)
  refine ⟨fun hzero => ?_, List.length_take_le _ _⟩
  exact stringsFrom_noNul (by simp) hq (List.mem_of_mem_take hzero)

/-- The list is loaded as it stands in the file exactly when it is a good one. -/
theorem load_reg_list_iff (w : ℕ → RegEnv) (file : Bytes) :
    (∃ s ret, loadRegList w file = some (s, ret) ∧ s.Loaded (listIds file)) ↔ ListGood w file := by
  rw [loadRegList_eq]
  have hlines := stringsFrom_lines file
  have hqs : ∀ q ∈ stringsFrom isLineEnd [] (file ++ [0]), (0 : UInt8) ∉ q.1 :=
    fun q hq => stringsFrom_noNul (by simp) hq
  have hfit : CopiesFit file ↔ ∀ q ∈ stringsFrom isLineEnd [] (file ++ [0]), 30 < q.1.length →
      lenDevid ≤ q.1.length + 1 + q.2.length := Iff.rfl
  generalize stringsFrom isLineEnd [] (file ++ [0]) = qs at hlines hqs hfit ⊢
  obtain ⟨hids, hbuckets⟩ := listCalls_ids w hqs 0
  have hdone : (listCalls w 0 qs).map RegCall.id = listIds (text file) := by
    rw [hids, hlines, listIds]
  obtain ⟨hgood, hbad⟩ := run_holding holding_empty hbuckets
  have hiff := callsGood_iff [] (listCalls w 0 qs)
  rw [listCalls_stay, hdone, List.append_nil] at hiff
  rw [hdone, List.append_nil] at hgood
  have hmem : ∀ id, id ∈ (listIds (text file)).reverse ↔ id ∈ listIds (text file) :=
    fun id => List.mem_reverse
  have hloadedIff (s : RegState) (hs : s.Holding (listIds (text file)).reverse) :=
    loaded_iff_of_holding hs (fun id hid => (listIds_text hid).1)
      (fun id hid => (listIds_text hid).2) (listIds file)
  constructor
  · rintro ⟨s, ret, hrun, hloaded⟩
    obtain ⟨hcopies, hrun⟩ := (loadLoop_iff w hqs 0 _ _ _).mp ⟨ret, hrun⟩
    by_cases hcalls : CallsGood [] (listCalls w 0 qs)
    · obtain ⟨s', hrun', hs⟩ := hgood hcalls
      rw [hrun] at hrun'
      rw [← Option.some.inj hrun'] at hs
      obtain ⟨hsame, hshort⟩ := (hloadedIff s hs).mp hloaded
      obtain ⟨hapart, hstay⟩ := hiff.mp ⟨by simp [Apart], hcalls⟩
      refine ⟨hfit.mpr hcopies, fun id => (hsame id).trans (hmem id), hshort, ?_, hstay⟩
      intro id hid id' hid'
      exact hapart id ((hsame id).mp hid) id' ((hsame id').mp hid')
    · obtain ⟨i, it, hit, hgone, _⟩ := hbad hcalls s hrun
      obtain ⟨id, _, b, hb, _⟩ := hloaded.only i it hit
      rw [hgone] at hb
      cases hb
  · intro h
    have hsame : ∀ id, id ∈ listIds file ↔ id ∈ (listIds (text file)).reverse :=
      fun id => (h.nul id).trans (hmem id).symm
    have hapart : Apart (listIds (text file)).reverse := by
      intro id hid id' hid'
      exact h.apart id ((hsame id).mpr hid) id' ((hsame id').mpr hid')
    obtain ⟨s, hrun, hs⟩ := hgood (hiff.mpr ⟨hapart, h.stay⟩).2
    obtain ⟨ret, hload⟩ := (loadLoop_iff w hqs 0 _ s 0).mpr ⟨hfit.mp h.fit, hrun⟩
    exact ⟨s, ret, hload, (hloadedIff s hs).mpr ⟨hsame, h.short⟩⟩

/-- One line, an id of 36 characters. -/
def shortList : Bytes := List.replicate 36 97 ++ [10]

/-- The copy of the last id goes on behind the loaded text. -/
theorem last_line_overread :
    loadRegList (fun _ => ⟨⟨0, 0⟩, none, false, []⟩) shortList = none ∧
      ¬ ∃ s ret, loadRegList (fun _ => ⟨⟨0, 0⟩, none, false, []⟩) shortList = some (s, ret) ∧
        s.Loaded (listIds shortList) := by
  have hnone : loadRegList (fun _ => ⟨⟨0, 0⟩, none, false, []⟩) shortList = none := rfl
  refine ⟨hnone, ?_⟩
  rintro ⟨s, ret, hrun, _⟩
  rw [hnone] at hrun
  cases hrun

end MemoryLeak.Notify
