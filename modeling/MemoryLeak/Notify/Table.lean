import MemoryLeak.BucketMap
import MemoryLeak.Runs
import MemoryLeak.Notify.Message

/-!
# The registration table

`list_reg_dev` with `reg_to_table` and `hl_track_msg`, allocation taken to
succeed and each item's message held by value. The chains are an instance of
`BucketMap`: the key of an item is the text of its `dev_id` field. The table is
shown to refine a finite map from ids to addresses over every sequence of
registrations and trackings.
-/
namespace MemoryLeak.Notify
open MemoryLeak.CBytes MemoryLeak.Runs

/-- `struct sockaddr_in`. -/
structure SockAddrIn where
  family : UInt16
  port : UInt16
  addr : UInt32
  deriving DecidableEq, Repr

/-- The address of an item that was never tracked: the allocation is cleared. -/
def noAddr : SockAddrIn := ⟨0, 0, 0⟩

/-- The fields of `HASH_ITEM` that the table uses. -/
structure HashItem where
  ipv4 : SockAddrIn
  msg : Bytes
  deriving DecidableEq, Repr

/-- `hitem->ipv4 = *addr`. -/
def HashItem.setIpv4 (addr : SockAddrIn) (it : HashItem) : HashItem := { it with ipv4 := addr }

/-- `HASH_LIST`: the counter and the chain, head first. -/
structure HashList where
  n : ℕ
  group : List HashItem
  deriving DecidableEq, Repr

abbrev Table := ℕ → HashList

def emptyTable : Table := fun _ => ⟨0, []⟩

/-- The `sizeof(RSA*)` bytes that `put_pubkey_msg` copies from the key object. -/
abbrev RsaWord := Vector UInt8 8

/-- `put_pubkey_msg` by value: the outcome of `file_2_pubrsa` is a parameter and the
bytes that `realloc` adds are zero. A loaded key grows the message, overwrites the
start of its data and its length. -/
def putPubkeyMsg (m : Bytes) : Option RsaWord → Bytes
  | none => m
  | some rsa =>
    setLen (memcpy (m ++ zeros 8) sizeofMsgCommon rsa.toList) (uint16ToArr 8 lenU16int)

/-- The chain walk of `reg_to_table` and `hl_track_msg`. It ends at the item
found, at the end of the chain, or when `n` items have been passed. -/
def chainWalk (id : Bytes) (n : ℕ) : ℕ → List HashItem → Option ℕ
  | _, [] => none
  | j, hitem :: rest =>
    if strncmp lenDevid id (devId hitem.msg) = 0 then some j
    else if n ≤ j + 1 then none
    else chainWalk id n (j + 1) rest

structure RegResult where
  res : ℤ
  table : Table
  /-- The caller's message, whose time fields may have been set. -/
  msg : Bytes

/-- `reg_to_table`. The walk writes the time into the caller's message, so only
an item put behind another one carries it. -/
def regToTable (T : Table) (msg : Bytes) (n : ℕ) (t : Option Timespec)
    (rsa : Option RsaWord) : RegResult :=
  let hn := hashId (devId msg)
  let hi := T hn
  if hi.n ≠ 0 then
    if hi.group = [] then ⟨0, Function.update T hn { hi with n := 0 }, msg⟩
    else
      let com := putTimeToMsg msg t
      match chainWalk (devId msg) hi.n 0 hi.group with
      | some _ => ⟨0, T, com⟩
      | none =>
        let hitem := ⟨noAddr, putPubkeyMsg (com.take n) rsa⟩
        ⟨1, Function.update T hn ⟨hi.n + 1, hitem :: hi.group⟩, com⟩
  else
    let hitem := ⟨noAddr, putPubkeyMsg (msg.take n) rsa⟩
    ⟨1, Function.update T hn ⟨1, [hitem]⟩, msg⟩

/-- `hl_track_msg`; it reads neither its `n` nor its `type` argument. -/
def hlTrackMsg (T : Table) (msg : Bytes) (addr : SockAddrIn) : ℤ × Table :=
  let hn := hashId (devId msg)
  let hi := T hn
  if hi.n ≠ 0 then
    if hi.group = [] then (0, Function.update T hn { hi with n := 0 })
    else
      match chainWalk (devId msg) hi.n 0 hi.group with
      | none => (0, T)
      | some j =>
        let group := hi.group.modify j (HashItem.setIpv4 addr)
        (1, Function.update T hn { hi with group := group })
  else (0, T)

/-! ### The table as chained buckets -/

def itemKey (it : HashItem) : Bytes := idKey (devId it.msg)
def homeOf (k : Bytes) : ℕ := hashFunc k k.length
/-- Keys of terminated ids, whose bucket depends on the text alone. -/
def GoodKey (k : Bytes) : Prop := k.length < lenDevid
def chains (T : Table) (i : ℕ) : List HashItem := (T i).group

theorem goodKey_idKey (id : Bytes) : GoodKey (idKey id) ↔ Terminated id :=
  cstr_length_lt_iff lenDevid id

theorem homeOf_idKey {id : Bytes} (h : Terminated id) : homeOf (idKey id) = hashId id :=
  (hashId_of_terminated h).symm

/-- What every registration and tracking keeps. -/
structure TableInv (T : Table) : Prop where
  counted : ∀ i, (T i).n = (T i).group.length
  distinct : BucketMap.Distinct itemKey (chains T)
  placed : BucketMap.Placed homeOf itemKey GoodKey (chains T)

theorem tableInv_empty : TableInv emptyTable where
  counted := fun _ => rfl
  distinct := fun _ => List.nodup_nil
  placed := by intro i a ha; simp [chains, emptyTable] at ha

theorem strncmp_item_iff (id : Bytes) (it : HashItem) :
    strncmp lenDevid id (devId it.msg) = 0 ↔ itemKey it = idKey id := by
  rw [strncmp_id_iff, itemKey, eq_comm]

theorem itemKey_setIpv4 (addr : SockAddrIn) (it : HashItem) :
    itemKey (it.setIpv4 addr) = itemKey it := rfl

/-- While the counter covers the rest of the chain, the walk finds the first
item with the id. -/
theorem chainWalk_eq (id : Bytes) {n j : ℕ} {l : List HashItem} (h : j + l.length ≤ n) :
    chainWalk id n j l =
      (l.findIdx? fun it => decide (itemKey it = idKey id)).map (· + j) := by
  induction l generalizing j with
  | nil => simp [chainWalk]
  | cons it rest ih =>
    rw [List.length_cons] at h
    by_cases hk : itemKey it = idKey id
    · simp [chainWalk, strncmp_item_iff, List.findIdx?_cons, hk]
    · simp only [chainWalk, strncmp_item_iff, hk, if_false, List.findIdx?_cons, decide_false,
        Bool.false_eq_true]
      by_cases hstop : n ≤ j + 1
      · have hrest : rest = [] := List.length_eq_zero_iff.mp (by omega)
        simp [hstop, hrest]
      · rw [if_neg hstop, ih (by omega)]
        cases rest.findIdx? fun it => decide (itemKey it = idKey id) with
        | none => rfl
        | some p => simp only [Option.map_some, Option.some.injEq]; omega

theorem chainWalk_none_iff {T : Table} (hinv : TableInv T) (id : Bytes) (i : ℕ) :
    chainWalk id (T i).n 0 (T i).group = none ↔ ∀ it ∈ (T i).group, itemKey it ≠ idKey id := by
  rw [chainWalk_eq id (by simp [hinv.counted i])]
  simp [List.findIdx?_eq_none_iff]

/-- Writing through the pointer found rewrites the one item with that key. -/
theorem modify_findIdx? {l : List HashItem} {k : Bytes} {p : ℕ} (f : HashItem → HashItem)
    (hd : (l.map itemKey).Nodup) (hp : l.findIdx? (fun it => decide (itemKey it = k)) = some p) :
    l.modify p f = l.map fun it => if itemKey it = k then f it else it := by
  obtain ⟨hlt, hkey, _⟩ := List.findIdx?_eq_some_iff_getElem.mp hp
  have hk : itemKey l[p] = k := by simpa using hkey
  apply List.ext_getElem
  · simp
  · intro q h1 h2
    have hq : q < l.length := by simpa using h2
    rw [List.getElem_modify, List.getElem_map]
    by_cases hqp : p = q
    · subst hqp
      rw [if_pos rfl, if_pos hk]
    · have hne : itemKey l[q] ≠ k := by
        intro he
        have hp' : p < (l.map itemKey).length := by simpa using hlt
        have hq' : q < (l.map itemKey).length := by simpa using hq
        have hmap : (l.map itemKey)[p] = (l.map itemKey)[q] := by simp [hk, he]
        exact hqp ((List.Nodup.getElem_inj_iff hd).mp hmap)
      rw [if_neg hqp, if_neg hne]

/-- The item a registration stores keeps the id of its message. -/
theorem itemKey_stored {msg com : Bytes} {n : ℕ} (hn : sizeofMsgCommon ≤ n) (hlen : n ≤ msg.length)
    (hl : com.length = msg.length) (hcom : com.take offSecond = msg.take offSecond)
    (rsa : Option RsaWord) (ip : SockAddrIn) :
    itemKey ⟨ip, putPubkeyMsg (com.take n) rsa⟩ = idKey (devId msg) := by
  have htake : (com.take n).take offSecond = msg.take offSecond := by
    rw [List.take_take, Nat.min_eq_left (by simp at *; omega), hcom]
  apply idKey_devId_congr
  cases rsa with
  | none => exact htake
  | some rsa =>
    have hm : (com.take n ++ zeros 8).length = n + 8 := by simp [hl, hlen]
    have h1 : (memcpy (com.take n ++ zeros 8) sizeofMsgCommon rsa.toList).length = n + 8 := by
      rw [memcpy_length (by rw [hm]; simp at *; omega), hm]
    rw [putPubkeyMsg, setLen, memcpy_take_of_le (by decide) (by rw [h1]; simp at *; omega),
      memcpy_take_of_le (by decide) (by rw [hm]; simp at *; omega),
      List.take_append_of_le_length (by simp [hl] at *; omega), htake]

/-- Everything a registration can do from a table that satisfies the invariant. -/
theorem regToTable_cases {T : Table} (hinv : TableInv T) {msg : Bytes} {n : ℕ}
    (hn : sizeofMsgCommon ≤ n) (hlen : n ≤ msg.length) (t : Option Timespec)
    (rsa : Option RsaWord) :
    let hn := hashId (devId msg)
    let r := regToTable T msg n t rsa
    ((∃ it ∈ (T hn).group, itemKey it = idKey (devId msg)) ∧ r.res = 0 ∧ r.table = T) ∨
    ((∀ it ∈ (T hn).group, itemKey it ≠ idKey (devId msg)) ∧ r.res = 1 ∧
      ∃ it, itemKey it = idKey (devId msg) ∧ it.ipv4 = noAddr ∧
        r.table = Function.update T hn ⟨(T hn).n + 1, it :: (T hn).group⟩) := by
  intro hn' r
  have hcount := hinv.counted hn'
  have hmsg : sizeofMsgCommon ≤ msg.length := hn.trans hlen
  by_cases hz : (T hn').n = 0
  · have hnil : (T hn').group = [] := List.length_eq_zero_iff.mp (by omega)
    right
    refine ⟨by simp [hnil], by simp [r, regToTable, hn', hz], _,
      itemKey_stored hn hlen rfl rfl rsa noAddr, rfl, ?_⟩
    simp [r, regToTable, hn', hz, hnil]
  · have hne : (T hn').group ≠ [] := by
      intro h
      rw [h] at hcount
      exact hz hcount
    cases hw : chainWalk (devId msg) (T hn').n 0 (T hn').group with
    | some j =>
      left
      have hex : ∃ it ∈ (T hn').group, itemKey it = idKey (devId msg) := by
        by_contra hno
        push Not at hno
        rw [(chainWalk_none_iff hinv (devId msg) hn').mpr hno] at hw
        cases hw
      exact ⟨hex, by simp [r, regToTable, hn', hz, hne, hw],
        by simp [r, regToTable, hn', hz, hne, hw]⟩
    | none =>
      right
      refine ⟨(chainWalk_none_iff hinv (devId msg) hn').mp hw,
        by simp [r, regToTable, hn', hz, hne, hw], _,
        itemKey_stored hn hlen (putTimeToMsg_length hmsg t) (putTimeToMsg_take hmsg t) rsa noAddr,
        rfl, ?_⟩
      simp [r, regToTable, hn', hz, hne, hw]

/-- Everything a tracking can do from a table that satisfies the invariant. -/
theorem hlTrackMsg_cases {T : Table} (hinv : TableInv T) (msg : Bytes) (addr : SockAddrIn) :
    let hn := hashId (devId msg)
    let r := hlTrackMsg T msg addr
    ((∀ it ∈ (T hn).group, itemKey it ≠ idKey (devId msg)) ∧ r = (0, T)) ∨
    ((∃ it ∈ (T hn).group, itemKey it = idKey (devId msg)) ∧ r.1 = 1 ∧
      r.2 = Function.update T hn ⟨(T hn).n, (T hn).group.map fun it =>
        if itemKey it = idKey (devId msg) then it.setIpv4 addr else it⟩) := by
  intro hn r
  have hcount := hinv.counted hn
  by_cases hz : (T hn).n = 0
  · have hnil : (T hn).group = [] := List.length_eq_zero_iff.mp (by omega)
    left
    exact ⟨by simp [hnil], by simp [r, hlTrackMsg, hn, hz]⟩
  · have hne : (T hn).group ≠ [] := by
      intro h
      rw [h] at hcount
      exact hz hcount
    cases hw : chainWalk (devId msg) (T hn).n 0 (T hn).group with
    | none =>
      left
      exact ⟨(chainWalk_none_iff hinv (devId msg) hn).mp hw,
        by simp [r, hlTrackMsg, hn, hz, hne, hw]⟩
    | some j =>
      right
      have hex : ∃ it ∈ (T hn).group, itemKey it = idKey (devId msg) := by
        by_contra hno
        push Not at hno
        rw [(chainWalk_none_iff hinv (devId msg) hn).mpr hno] at hw
        cases hw
      have hidx : (T hn).group.findIdx? (fun it => decide (itemKey it = idKey (devId msg))) =
          some j := by
        rw [chainWalk_eq _ (by simp [hcount])] at hw
        simpa using hw
      refine ⟨hex, by simp [r, hlTrackMsg, hn, hz, hne, hw], ?_⟩
      have hd : ((T hn).group.map itemKey).Nodup := hinv.distinct hn
      rw [← modify_findIdx? (HashItem.setIpv4 addr) hd hidx]
      simp [r, hlTrackMsg, hn, hz, hne, hw]

/-! ### Invariant -/

theorem chains_insert (T : Table) (i c : ℕ) (it : HashItem) :
    chains (Function.update T i ⟨c, it :: (T i).group⟩) = BucketMap.insert (chains T) i it := by
  funext j
  by_cases h : j = i
  · subst h; simp [chains, BucketMap.insert]
  · simp [chains, BucketMap.insert, Function.update_of_ne h]

theorem chains_modify (T : Table) (i : ℕ) (k : Bytes) (f : HashItem → HashItem) :
    chains (Function.update T i ⟨(T i).n, (T i).group.map fun it =>
      if itemKey it = k then f it else it⟩) = BucketMap.modify itemKey (chains T) i k f := by
  funext j
  by_cases h : j = i
  · subst h; simp [chains, BucketMap.modify]
  · simp [chains, BucketMap.modify, Function.update_of_ne h]

theorem tableInv_insert {T : Table} (hinv : TableInv T) {msg : Bytes} {it : HashItem}
    (hnew : ∀ x ∈ (T (hashId (devId msg))).group, itemKey x ≠ idKey (devId msg))
    (hk : itemKey it = idKey (devId msg)) :
    TableInv (Function.update T (hashId (devId msg))
      ⟨(T (hashId (devId msg))).n + 1, it :: (T (hashId (devId msg))).group⟩) where
  counted := by
    intro i
    by_cases h : i = hashId (devId msg)
    · subst h; simp [hinv.counted]
    · simp [Function.update_of_ne h, hinv.counted]
  distinct := by
    rw [chains_insert]
    exact BucketMap.distinct_insert hinv.distinct (by rw [hk]; exact hnew)
  placed := by
    rw [chains_insert]
    apply BucketMap.placed_insert hinv.placed
    rw [hk, goodKey_idKey]
    exact homeOf_idKey

theorem tableInv_setAddr {T : Table} (hinv : TableInv T) (i : ℕ) (k : Bytes) (addr : SockAddrIn) :
    TableInv (Function.update T i ⟨(T i).n, (T i).group.map fun it =>
      if itemKey it = k then it.setIpv4 addr else it⟩) where
  counted := by
    intro j
    by_cases h : j = i
    · subst h; simp [hinv.counted]
    · simp [Function.update_of_ne h, hinv.counted]
  distinct := by
    rw [chains_modify T i k (HashItem.setIpv4 addr)]
    exact BucketMap.distinct_modify hinv.distinct (itemKey_setIpv4 addr)
  placed := by
    rw [chains_modify T i k (HashItem.setIpv4 addr)]
    exact BucketMap.placed_modify hinv.placed (itemKey_setIpv4 addr)

/-- The calls made on the table. -/
inductive TableOp where
  | reg (msg : Bytes) (n : ℕ) (t : Option Timespec) (rsa : Option RsaWord)
  | track (msg : Bytes) (addr : SockAddrIn)

namespace TableOp

def msg : TableOp → Bytes
  | reg msg _ _ _ => msg
  | track msg _ => msg

/-- The id the call is about. -/
def key (op : TableOp) : Bytes := idKey (devId op.msg)

def isReg : TableOp → Bool
  | reg .. => true
  | track .. => false

/-- A registration is given its whole header. -/
def Sized : TableOp → Prop
  | reg msg n _ _ => sizeofMsgCommon ≤ n ∧ n ≤ msg.length
  | track _ _ => True

/-- A call on a message with a NUL-terminated id. -/
def Valid (op : TableOp) : Prop := op.Sized ∧ Terminated (devId op.msg)

instance (op : TableOp) : Decidable op.Sized := by
  cases op <;> unfold Sized <;> infer_instance

instance (op : TableOp) : Decidable op.Valid := inferInstanceAs (Decidable (_ ∧ _))

end TableOp

def tableStep (T : Table) : TableOp → Table × ℤ
  | .reg msg n t rsa => ((regToTable T msg n t rsa).table, (regToTable T msg n t rsa).res)
  | .track msg addr => ((hlTrackMsg T msg addr).2, (hlTrackMsg T msg addr).1)

/-- The invariant needs no assumption on the ids. -/
theorem tableStep_inv {T : Table} (hinv : TableInv T) {op : TableOp} (hop : op.Sized) :
    TableInv (tableStep T op).1 := by
  cases op with
  | reg msg n t rsa =>
    rcases regToTable_cases hinv hop.1 hop.2 t rsa with ⟨_, _, hT⟩ | ⟨hnew, _, it, hk, _, hT⟩
    · rw [tableStep, hT]; exact hinv
    · rw [tableStep, hT]; exact tableInv_insert hinv hnew hk
  | track msg addr =>
    rcases hlTrackMsg_cases hinv msg addr with ⟨_, hr⟩ | ⟨_, _, hT⟩
    · rw [tableStep, hr]; exact hinv
    · rw [tableStep, hT]; exact tableInv_setAddr hinv _ _ addr

theorem table_inv (ops : List TableOp) (h : ∀ op ∈ ops, op.Sized) :
    TableInv (exec tableStep emptyTable ops).1 :=
  exec_invariant (P := TableInv) (V := TableOp.Sized) (fun _ _ hi ho => tableStep_inv hi ho)
    tableInv_empty h

/-! ### Refinement of a finite map -/

/-- What the table is for: a map from ids to the last known address. -/
abbrev Registry := Bytes → Option SockAddrIn

def registryStep (R : Registry) : TableOp → Registry × ℤ
  | .reg msg _ _ _ =>
    let k := idKey (devId msg)
    if (R k).isSome then (R, 0) else (Function.update R k (some noAddr), 1)
  | .track msg addr =>
    let k := idKey (devId msg)
    if (R k).isSome then (Function.update R k (some addr), 1) else (R, 0)

def itemOf (T : Table) (k : Bytes) : Option HashItem :=
  BucketMap.lookup homeOf itemKey (chains T) k

def addrOf (T : Table) (k : Bytes) : Option SockAddrIn := (itemOf T k).map HashItem.ipv4

theorem itemOf_isSome_iff {T : Table} {id : Bytes} (h : Terminated id) :
    (itemOf T (idKey id)).isSome ↔ ∃ it ∈ (T (hashId id)).group, itemKey it = idKey id := by
  rw [itemOf, BucketMap.lookup_isSome_iff, homeOf_idKey h]
  rfl

/-- A registration stores an item for a new id and leaves all others alone. -/
theorem regToTable_items {T : Table} (hinv : TableInv T) {msg : Bytes} {n : ℕ}
    (hn : sizeofMsgCommon ≤ n) (hlen : n ≤ msg.length) (ht : Terminated (devId msg))
    (t : Option Timespec) (rsa : Option RsaWord) :
    (regToTable T msg n t rsa).res = (if (itemOf T (idKey (devId msg))).isSome then 0 else 1) ∧
    (∀ k, k ≠ idKey (devId msg) → itemOf (regToTable T msg n t rsa).table k = itemOf T k) ∧
    addrOf (regToTable T msg n t rsa).table (idKey (devId msg)) =
      if (itemOf T (idKey (devId msg))).isSome then addrOf T (idKey (devId msg))
      else some noAddr := by
  have hsome := itemOf_isSome_iff (T := T) ht
  rcases regToTable_cases hinv hn hlen t rsa with ⟨hex, hres, hT⟩ | ⟨hnew, hres, it, hk, hip, hT⟩
  · have h := hsome.mpr hex
    exact ⟨by rw [if_pos h, hres], fun k _ => by rw [hT], by rw [if_pos h, hT]⟩
  · have h : ¬ (itemOf T (idKey (devId msg))).isSome := by
      rw [hsome]
      push Not
      exact hnew
    have hins : ∀ k, itemOf (regToTable T msg n t rsa).table k =
        BucketMap.lookup homeOf itemKey
          (BucketMap.insert (chains T) (hashId (devId msg)) it) k := by
      intro k
      rw [itemOf, hT, chains_insert]
    have hself : BucketMap.lookup homeOf itemKey
        (BucketMap.insert (chains T) (hashId (devId msg)) it) (itemKey it) = some it :=
      BucketMap.lookup_insert_self (by rw [hk, homeOf_idKey ht])
    rw [hk] at hself
    refine ⟨by rw [if_neg h, hres], ?_, ?_⟩
    · intro k hk'
      rw [hins, BucketMap.lookup_insert_ne (by rw [hk]; exact Ne.symm hk')]
      rfl
    · rw [if_neg h, addrOf, hins, hself, Option.map_some, hip]

/-- A tracking sets the address of its id's item and changes nothing else. -/
theorem hlTrackMsg_items {T : Table} (hinv : TableInv T) {msg : Bytes}
    (ht : Terminated (devId msg)) (addr : SockAddrIn) :
    (hlTrackMsg T msg addr).1 = (if (itemOf T (idKey (devId msg))).isSome then 1 else 0) ∧
    ∀ k, itemOf (hlTrackMsg T msg addr).2 k =
      if k = idKey (devId msg) then (itemOf T k).map (HashItem.setIpv4 addr) else itemOf T k := by
  have hsome := itemOf_isSome_iff (T := T) ht
  rcases hlTrackMsg_cases hinv msg addr with ⟨hno, hr⟩ | ⟨hex, hres, hT⟩
  · have h : ¬ (itemOf T (idKey (devId msg))).isSome := by
      rw [hsome]
      push Not
      exact hno
    have hnone : itemOf T (idKey (devId msg)) = none := by simpa using h
    refine ⟨by rw [if_neg h, hr], ?_⟩
    intro k
    rw [hr]
    split_ifs with hk
    · rw [hk, hnone]
      rfl
    · rfl
  · refine ⟨by rw [if_pos (hsome.mpr hex), hres], ?_⟩
    intro k
    rw [itemOf, hT, chains_modify T _ _ (HashItem.setIpv4 addr), ← homeOf_idKey ht,
      BucketMap.lookup_modify (itemKey_setIpv4 addr)]
    split_ifs with hk
    · rw [hk]
      rfl
    · rfl

/-- One call on the table is one call on the map, with the same result. -/
theorem tableStep_refines {T : Table} {R : Registry} (hinv : TableInv T)
    (hR : ∀ k, addrOf T k = R k) {op : TableOp} (hop : op.Valid) :
    (∀ k, addrOf (tableStep T op).1 k = (registryStep R op).1 k) ∧
      (tableStep T op).2 = (registryStep R op).2 := by
  have hdef : ∀ k, (R k).isSome = (itemOf T k).isSome := by
    intro k
    rw [← hR k, addrOf, Option.isSome_map]
  cases op with
  | reg msg n t rsa =>
    obtain ⟨hres, hother, hself⟩ := regToTable_items hinv hop.1.1 hop.1.2 hop.2 t rsa
    simp only [tableStep, registryStep, hdef, hres]
    by_cases h : (itemOf T (idKey (devId msg))).isSome
    · simp only [h, if_true, and_true] at hself ⊢
      intro k
      by_cases hk : k = idKey (devId msg)
      · rw [hk, hself, hR]
      · rw [addrOf, hother k hk, ← hR k, addrOf]
    · simp only [h, if_false, Bool.false_eq_true, and_true] at hself ⊢
      intro k
      by_cases hk : k = idKey (devId msg)
      · rw [hk, hself, Function.update_self]
      · rw [addrOf, hother k hk, Function.update_of_ne hk, ← hR k, addrOf]
  | track msg addr =>
    have ht : Terminated (devId msg) := hop.2
    obtain ⟨hres, hitems⟩ := hlTrackMsg_items hinv ht addr
    simp only [tableStep, registryStep, hdef, hres]
    by_cases h : (itemOf T (idKey (devId msg))).isSome
    · simp only [h, if_true, and_true]
      intro k
      rw [addrOf, hitems k]
      by_cases hk : k = idKey (devId msg)
      · obtain ⟨it, hit⟩ := Option.isSome_iff_exists.mp h
        rw [if_pos hk, hk, hit, Function.update_self]
        rfl
      · rw [if_neg hk, Function.update_of_ne hk, ← hR k, addrOf]
    · simp only [h, if_false, Bool.false_eq_true, and_true]
      have hnone : itemOf T (idKey (devId msg)) = none := by simpa using h
      intro k
      rw [addrOf, hitems k, ← hR k, addrOf]
      by_cases hk : k = idKey (devId msg)
      · rw [if_pos hk, hk, hnone]
        rfl
      · rw [if_neg hk]

theorem table_refines (ops : List TableOp) (h : ∀ op ∈ ops, op.Valid) :
    (∀ k, addrOf (exec tableStep emptyTable ops).1 k =
      (exec registryStep (fun _ => none) ops).1 k) ∧
    (exec tableStep emptyTable ops).2 = (exec registryStep (fun _ => none) ops).2 := by
  have hstep : ∀ (T : Table) (R : Registry) (op : TableOp),
      (TableInv T ∧ ∀ k, addrOf T k = R k) → op.Valid →
      (TableInv (tableStep T op).1 ∧ ∀ k, addrOf (tableStep T op).1 k = (registryStep R op).1 k) ∧
        (tableStep T op).2 = (registryStep R op).2 := by
    intro T R op hTR hop
    obtain ⟨hk, hout⟩ := tableStep_refines hTR.1 hTR.2 hop
    exact ⟨⟨tableStep_inv hTR.1 hop.1, hk⟩, hout⟩
  obtain ⟨hend, hout⟩ := exec_refines hstep ⟨tableInv_empty, fun _ => rfl⟩ h
  exact ⟨hend.2, hout⟩

/-! ### What the map holds after a history -/

/-- Some call of the history registers the id. -/
def Registered (ops : List TableOp) (k : Bytes) : Prop := ∃ op ∈ ops, op.isReg ∧ op.key = k

theorem registryStep_isSome (R : Registry) (op : TableOp) (k : Bytes) :
    ((registryStep R op).1 k).isSome ↔ (R k).isSome ∨ (op.isReg ∧ op.key = k) := by
  cases op with
  | reg msg n t rsa =>
    simp only [registryStep, TableOp.isReg, TableOp.key, TableOp.msg, true_and]
    by_cases h : (R (idKey (devId msg))).isSome
    · by_cases hk : idKey (devId msg) = k
      · subst hk; simp [h]
      · simp [h, hk]
    · by_cases hk : k = idKey (devId msg)
      · subst hk; simp [h]
      · simp [h, Function.update_of_ne hk, Ne.symm hk]
  | track msg addr =>
    simp only [registryStep, TableOp.isReg, Bool.false_eq_true, false_and, or_false]
    by_cases h : (R (idKey (devId msg))).isSome
    · by_cases hk : k = idKey (devId msg)
      · subst hk; simp [h]
      · simp [h, Function.update_of_ne hk]
    · simp [h]

theorem registry_isSome_iff (R : Registry) (ops : List TableOp) (k : Bytes) :
    ((exec registryStep R ops).1 k).isSome ↔ (R k).isSome ∨ Registered ops k := by
  induction ops generalizing R with
  | nil => simp [Registered]
  | cons op ops ih =>
    rw [exec_cons, ih, registryStep_isSome]
    simp only [Registered, List.mem_cons, exists_eq_or_imp]
    tauto

/-- A call that does not track the id keeps the address of a registered one. -/
theorem registryStep_keeps {R : Registry} {k : Bytes} {addr : SockAddrIn} (hR : R k = some addr)
    {op : TableOp} (hop : op.isReg ∨ op.key ≠ k) : (registryStep R op).1 k = some addr := by
  cases op with
  | reg msg n t rsa =>
    simp only [registryStep]
    split_ifs with h
    · exact hR
    · have hk : k ≠ idKey (devId msg) := by
        rintro rfl
        simp [hR] at h
      simpa only [Function.update_of_ne hk] using hR
  | track msg addr' =>
    have hk : idKey (devId msg) ≠ k := by simpa [TableOp.isReg, TableOp.key, TableOp.msg] using hop
    simp only [registryStep]
    split_ifs
    · simpa only [Function.update_of_ne (Ne.symm hk)] using hR
    · exact hR

/-- The address of a registered id is that of its last tracking. -/
theorem registry_last_track {before after : List TableOp} {msg : Bytes} {addr : SockAddrIn}
    (hreg : Registered before (idKey (devId msg)))
    (hlast : ∀ op ∈ after, op.isReg ∨ op.key ≠ idKey (devId msg)) :
    (exec registryStep (fun _ => none) (before ++ .track msg addr :: after)).1 (idKey (devId msg)) =
      some addr := by
  have hsome := (registry_isSome_iff (fun _ => none) before (idKey (devId msg))).mpr (Or.inr hreg)
  rw [exec_append, exec_cons]
  apply exec_invariant (P := fun R : Registry => R (idKey (devId msg)) = some addr)
    (V := fun op : TableOp => op.isReg ∨ op.key ≠ idKey (devId msg))
    (fun _ _ hR hop => registryStep_keeps hR hop) _ hlast
  simp [registryStep, hsome]

/-- A call adds no key to the table but its own. -/
theorem tableStep_keys {T : Table} (hinv : TableInv T) {op : TableOp} (hop : op.Sized) {i : ℕ}
    {x : HashItem} (hx : x ∈ ((tableStep T op).1 i).group) :
    (∃ y ∈ (T i).group, itemKey y = itemKey x) ∨ itemKey x = op.key := by
  cases op with
  | reg msg n t rsa =>
    rcases regToTable_cases hinv hop.1 hop.2 t rsa with ⟨_, _, hT⟩ | ⟨_, _, it, hk, _, hT⟩
    · simp only [tableStep, hT] at hx
      exact Or.inl ⟨x, hx, rfl⟩
    · simp only [tableStep, hT] at hx
      by_cases hi : i = hashId (devId msg)
      · subst hi
        simp only [Function.update_self, List.mem_cons] at hx
        rcases hx with rfl | hx
        · exact Or.inr hk
        · exact Or.inl ⟨x, hx, rfl⟩
      · simp only [Function.update_of_ne hi] at hx
        exact Or.inl ⟨x, hx, rfl⟩
  | track msg addr =>
    rcases hlTrackMsg_cases hinv msg addr with ⟨_, hr⟩ | ⟨_, _, hT⟩
    · simp only [tableStep, hr] at hx
      exact Or.inl ⟨x, hx, rfl⟩
    · have hmem : itemKey x ∈ (chains (tableStep T (.track msg addr)).1 i).map itemKey :=
        List.mem_map_of_mem hx
      simp only [tableStep, hT] at hmem
      rw [chains_modify T _ _ (HashItem.setIpv4 addr),
        BucketMap.modify_map_key (itemKey_setIpv4 addr)] at hmem
      exact Or.inl (List.mem_map.mp hmem)

/-- Every stored id is terminated when every registered one is. -/
theorem table_goodKeys (ops : List TableOp) (h : ∀ op ∈ ops, op.Valid) :
    ∀ i, ∀ it ∈ ((exec tableStep emptyTable ops).1 i).group, GoodKey (itemKey it) := by
  suffices hP : TableInv (exec tableStep emptyTable ops).1 ∧
      ∀ i, ∀ it ∈ ((exec tableStep emptyTable ops).1 i).group, GoodKey (itemKey it) from hP.2
  apply exec_invariant
    (P := fun T : Table => TableInv T ∧ ∀ i, ∀ it ∈ (T i).group, GoodKey (itemKey it))
    (V := TableOp.Valid) _ ⟨tableInv_empty, by simp [emptyTable]⟩ h
  rintro T op ⟨hinv, hgood⟩ hop
  refine ⟨tableStep_inv hinv hop.1, ?_⟩
  intro i x hx
  rcases tableStep_keys hinv hop.1 hx with ⟨y, hy, hky⟩ | hk
  · rw [← hky]
    exact hgood i y hy
  · rw [hk, TableOp.key, goodKey_idKey]
    exact hop.2

/-- `T`, reached by the calls `ops`, is a map from ids to items. -/
structure IsMapAfter (ops : List TableOp) (T : Table) : Prop where
  placed : ∀ i, ∀ it ∈ (T i).group, hashId (devId it.msg) = i
  counted : ∀ i, (T i).n = (T i).group.length
  unique : ∀ (i j p q : ℕ) (it it' : HashItem), (T i).group[p]? = some it →
    (T j).group[q]? = some it' →
    strncmp lenDevid (devId it.msg) (devId it'.msg) = 0 → i = j ∧ p = q
  /-- The addresses are those of the abstract map. -/
  addresses : ∀ k, addrOf T k = (exec registryStep (fun _ => none) ops).1 k
  /-- The next registration returns 1 exactly for a new id, changes nothing when
  it returns 0, and never touches the item of another id. -/
  reg : ∀ msg n t rsa, (TableOp.reg msg n t rsa).Valid →
    ((regToTable T msg n t rsa).res = 1 ↔ ¬ Registered ops (idKey (devId msg))) ∧
    ((regToTable T msg n t rsa).res = 1 ∨ (regToTable T msg n t rsa).table = T) ∧
    ∀ k, k ≠ idKey (devId msg) → itemOf (regToTable T msg n t rsa).table k = itemOf T k
  /-- The next tracking returns 1 exactly for a registered id and changes only
  the address of its item. -/
  track : ∀ msg addr, Terminated (devId msg) →
    ((hlTrackMsg T msg addr).1 = 1 ↔ Registered ops (idKey (devId msg))) ∧
    ∀ k, itemOf (hlTrackMsg T msg addr).2 k =
      if k = idKey (devId msg) then (itemOf T k).map (HashItem.setIpv4 addr) else itemOf T k
  /-- The address stored is that of the last tracking of the id. -/
  last : ∀ before msg addr after, ops = before ++ .track msg addr :: after →
    Registered before (idKey (devId msg)) →
    (∀ op ∈ after, op.isReg ∨ op.key ≠ idKey (devId msg)) →
    addrOf T (idKey (devId msg)) = some addr

/-- Over every sequence of registrations and trackings of terminated ids the
table is a map, and it returns what the abstract map returns. -/
theorem table_refines_map (ops : List TableOp) (h : ∀ op ∈ ops, op.Valid) :
    IsMapAfter ops (exec tableStep emptyTable ops).1 ∧
    (exec tableStep emptyTable ops).2 = (exec registryStep (fun _ => none) ops).2 := by
  have hinv := table_inv ops (fun op hop => (h op hop).1)
  have hgood := table_goodKeys ops h
  obtain ⟨haddr, hout⟩ := table_refines ops h
  set T := (exec tableStep emptyTable ops).1
  have hsome : ∀ k, (itemOf T k).isSome ↔ Registered ops k := by
    intro k
    have hk := registry_isSome_iff (fun _ => none) ops k
    rw [← haddr k, addrOf, Option.isSome_map] at hk
    simpa using hk
  refine ⟨⟨?_, hinv.counted, ?_, haddr, ?_, ?_, ?_⟩, hout⟩
  · intro i it hit
    have hk := hgood i it hit
    rw [← homeOf_idKey ((goodKey_idKey _).mp hk)]
    exact hinv.placed i it hit hk
  · intro i j p q it it' hp hq heq
    exact BucketMap.unique hinv.placed hinv.distinct hp hq ((strncmp_id_iff _ _).mp heq)
      (hgood i it (List.mem_of_getElem? hp))
  · intro msg n t rsa hv
    obtain ⟨hres, hother, _⟩ := regToTable_items hinv hv.1.1 hv.1.2 hv.2 t rsa
    refine ⟨?_, ?_, hother⟩
    · rw [hres, ← hsome]
      split_ifs with hr <;> simp [hr]
    · rcases regToTable_cases hinv hv.1.1 hv.1.2 t rsa with ⟨_, _, hT⟩ | ⟨_, hone, _⟩
      · exact Or.inr hT
      · exact Or.inl hone
  · intro msg addr ht
    obtain ⟨hres, hitems⟩ := hlTrackMsg_items hinv ht addr
    refine ⟨?_, hitems⟩
    rw [hres, ← hsome]
    split_ifs with hr <;> simp [hr]
  · intro before msg addr after hops hreg hlast
    rw [haddr, hops]
    exact registry_last_track hreg hlast

theorem table_refines_map_sample :
    let m := header msgReg gNtfCli [100, 49] []
    let m' := header msgReg gNtfCli [100, 50] []
    let ops := [.reg m 100 none none, .reg m 100 none none, .track m ⟨2, 7000, 1⟩,
      .track m' ⟨2, 7000, 2⟩]
    IsMapAfter ops (exec tableStep emptyTable ops).1 ∧
      (exec tableStep emptyTable ops).2 = [1, 0, 1, 0] := by
  intro m m' ops
  have h := table_refines_map ops (by decide +kernel)
  exact ⟨h.1, h.2.trans (by decide +kernel)⟩

/-! ### Ids without a terminator -/

/-- The bytes before the end of an unterminated field are all nonzero. -/
theorem ne_zero_of_not_terminated {id : Bytes} (h : ¬ Terminated id) :
    ∀ b ∈ id.take lenDevid, b ≠ 0 := by
  intro b hb
  obtain ⟨i, hi, rfl⟩ := List.mem_iff_getElem.mp hb
  have hle : lenDevid ≤ strlen id := by simpa [Terminated] using h
  have hi' : i < lenDevid := by simp at hi; exact hi.1
  have hne := byteAt_ne_zero_of_lt_strlen (show i < strlen id by omega)
  have hlen := strlen_le_length id
  rw [List.getElem_take]
  simpa [byteAt, List.getElem?_eq_getElem (show i < id.length by omega)] using hne

/-- The id `id` followed by the bytes `rest` in its own buffer. -/
theorem hashId_append {id rest : Bytes} (hid : ¬ Terminated id) (hrest : strlen rest ≤ 1) :
    hashId (id.take lenDevid ++ rest) =
      hashFunc (id.take lenDevid ++ rest) (lenDevid + strlen rest) := by
  have hle : lenDevid ≤ strlen id := by simpa [Terminated] using hid
  have hlen : (id.take lenDevid).length = lenDevid := by
    have := strlen_le_length id
    simp at *
    omega
  rw [hashId, strlen_append (ne_zero_of_not_terminated hid), hlen]
  congr 1
  simp
  omega

/-- What stands behind an unterminated field decides the bucket: nothing, or the
byte 1. -/
theorem hashId_append_ne {id : Bytes} (hid : ¬ Terminated id) :
    hashId (id.take lenDevid ++ 0 :: zeros 57) ≠ hashId (id.take lenDevid ++ 1 :: zeros 57) := by
  have hlen : (id.take lenDevid).length = lenDevid := by
    have hle : lenDevid ≤ strlen id := by simpa [Terminated] using hid
    have := strlen_le_length id
    simp at *
    omega
  have hs0 : strlen (0 :: zeros 57) = 0 := by simp
  have hs1 : strlen (1 :: zeros 57) = 1 := by decide
  have hsame : hashFunc (id.take lenDevid ++ 0 :: zeros 57) lenDevid =
      hashFunc (id.take lenDevid ++ 1 :: zeros 57) lenDevid :=
    hashFunc_eq_of_take (by rw [List.take_left' hlen, List.take_left' hlen])
  have hbyte : byteAt (id.take lenDevid ++ 1 :: zeros 57) lenDevid = 1 := by
    rw [byteAt_append_right _ _ (by omega), hlen]
    rfl
  have hsucc := hashFunc_succ (id.take lenDevid ++ 1 :: zeros 57) (show lenDevid < maxMsg by decide)
  rw [hbyte] at hsucc
  rw [hashId_append hid (by omega), hashId_append hid (by omega), hs0, hs1, Nat.add_zero, hsucc,
    hsame]
  have hlt := hashFunc_lt (id.take lenDevid ++ 1 :: zeros 57) lenDevid
  have hterm : hashTerm 1 lenDevid ≠ 0 := by decide
  have htlt := hashTerm_lt 1 lenDevid
  simp only [hashSize] at *
  omega

/-- Bucket and equality of ids agree for a message, whatever message it is
compared with, exactly when its id is terminated. -/
theorem hashId_respects_strncmp_iff (m : Bytes) (hm : sizeofMsgCommon ≤ m.length) :
    (∀ m' : Bytes, sizeofMsgCommon ≤ m'.length → strncmp lenDevid (devId m) (devId m') = 0 →
      hashId (devId m) = hashId (devId m')) ↔ Terminated (devId m) := by
  constructor
  · intro h
    by_contra hid
    -- two messages with the same id field, followed by nothing and by the byte 1
    have hdev : (devId m).length = m.length - 2 := by simp [devId]
    have hlen : ((devId m).take lenDevid).length = lenDevid := by simp at *; omega
    have hmsg : ∀ rest : Bytes, rest.length = 58 →
        hashId (devId m) = hashId ((devId m).take lenDevid ++ rest) := by
      intro rest hr
      have hdevs : devId (m.take offDevId ++ ((devId m).take lenDevid ++ rest)) =
          (devId m).take lenDevid ++ rest := by
        have h2 : (m.take offDevId).length = offDevId := by simp at *; omega
        rw [devId, List.drop_left' h2]
      rw [← hdevs]
      apply h
      · simp at *; omega
      · rw [hdevs, strncmp_eq_zero_iff, ← cstr_take le_rfl (_ ++ rest), List.take_left' hlen,
          cstr_take le_rfl]
    apply hashId_append_ne hid
    rw [← hmsg (0 :: zeros 57) (by simp), ← hmsg (1 :: zeros 57) (by simp)]
  · intro ht m' _ heq
    exact hashId_eq_of_idKey_eq ht ((strncmp_id_iff _ _).mp heq)

theorem hashId_respects_strncmp_sample :
    let m := header msgTra gNtfCli (List.replicate 36 97) []
    Terminated (devId m) ∧ ∀ m' : Bytes, sizeofMsgCommon ≤ m'.length →
      strncmp lenDevid (devId m) (devId m') = 0 → hashId (devId m) = hashId (devId m') := by
  intro m
  have ht : Terminated (devId m) := by decide
  exact ⟨ht, (hashId_respects_strncmp_iff m (by decide)).mpr ht⟩

/-- A 40-byte id: the notifier id behind it moves it to another bucket. -/
theorem hashId_depends_on_ntfId :
    ¬ ∀ m m' : Bytes, sizeofMsgCommon ≤ m.length → sizeofMsgCommon ≤ m'.length →
      strncmp lenDevid (devId m) (devId m') = 0 → hashId (devId m) = hashId (devId m') := by
  intro h
  have heq := h (header msgReg gNtfCli (List.replicate 40 97) [])
    (header msgNtf gNtfCli (List.replicate 40 97) [98]) (by decide) (by decide) (by decide +kernel)
  revert heq
  decide +kernel

end MemoryLeak.Notify
