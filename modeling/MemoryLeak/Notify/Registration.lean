import MemoryLeak.Heap
import MemoryLeak.Notify.Table

/-!
# Who owns a registration message

`reg_to_table` and `put_pubkey_msg` once more, over a heap of byte blocks. An
item holds the address of its message; the two insertion branches allocate
different sizes, and `put_pubkey_msg` resizes the block through its own copy of
the pointer. A copy outside its block, or a read through a dead pointer, leaves
the step without an outcome.
-/
namespace MemoryLeak.Notify
open MemoryLeak.CBytes MemoryLeak.Heap MemoryLeak.Runs

/-- `sizeof(HASH_ITEM)`: two 16-byte and one 28-byte address padded to 64, then
a length and three pointers. -/
@[simp] abbrev sizeofHashItem : ℕ := 96

/-- An item whose message lives on the heap. `reg` is a ghost: the bytes its
registration copied. -/
structure MsgItem where
  ipv4 : SockAddrIn
  msg : ℕ
  reg : Bytes

/-- `HASH_LIST`, the counter being the length of the chain. -/
structure MsgList where
  n : ℕ
  group : List MsgItem
  counted : n = group.length

structure RegState where
  heap : ByteHeap
  table : ℕ → MsgList

def RegState.empty : RegState := ⟨ByteHeap.empty, fun _ => ⟨0, [], rfl⟩⟩

/-- A call of `reg_to_table` on `n` message bytes, with the outcomes of the key
lookup and of `realloc`. -/
structure RegCall where
  msg : Bytes
  n : ℕ
  t : Option Timespec
  rsa : Option RsaWord
  moves : Bool
  junk : Bytes
  header_le : sizeofMsgCommon ≤ n
  n_le : n ≤ msg.length

namespace RegCall

def bucket (c : RegCall) : ℕ := hashId (devId c.msg)

end RegCall

/-- The walk of `reg_to_table`: whether an item with the id was met. -/
def chainWalkHeap (h : ByteHeap) (id : Bytes) (n : ℕ) : ℕ → List MsgItem → Option Bool
  | _, [] => some false
  | j, hitem :: rest =>
    match h.block hitem.msg with
    | none => none
    | some m =>
      if strncmp lenDevid id (devId m) = 0 then some true
      else if n ≤ j + 1 then some false
      else chainWalkHeap h id n (j + 1) rest

/-- `put_pubkey_msg(hitem->msg, &sz)` with `sz = n`. The caller's pointer `m` is
not updated when the block moves. -/
def putPubkeyMsgHeap (h : ByteHeap) (m : ℕ) (c : RegCall) : Option ByteHeap :=
  match c.rsa with
  | none => some h
  | some rsa => do
    let (m', h) ← h.realloc m (c.n + 8) c.junk c.moves
    let h ← h.store m' sizeofMsgCommon (zeros 8)
    let h ← h.store m' sizeofMsgCommon rsa.toList
    h.store m' offLen (uint16ToArr 8 lenU16int)

/-- `MY_MALLOC(hitem->msg, size); memcpy(hitem->msg, com, n); put_pubkey_msg(..)`. -/
def newMsg (h : ByteHeap) (size : ℕ) (com : Bytes) (c : RegCall) : Option ByteHeap := do
  let (m, h) := h.malloc size
  let h ← h.store m 0 (com.take c.n)
  putPubkeyMsgHeap h m c

/-- Link a new item whose message is at the address allocated next. -/
def RegState.link (s : RegState) (i : ℕ) (com : Bytes) (n : ℕ) (h : ByteHeap) : RegState where
  heap := h
  table := Function.update s.table i
    { n := (s.table i).n + 1
      group := ⟨noAddr, s.heap.next, com.take n⟩ :: (s.table i).group
      counted := by simp [(s.table i).counted] }

/-- `reg_to_table`. With a counter that counts the chain, a nonempty bucket has a
nonnull `group`. -/
def regToTableHeap (s : RegState) (c : RegCall) : Option (RegState × ℤ) :=
  let hi := s.table c.bucket
  if hi.n ≠ 0 then
    match chainWalkHeap s.heap (devId c.msg) hi.n 0 hi.group with
    | none => none
    | some true => some (s, 0)
    | some false => do
      let com := putTimeToMsg c.msg c.t
      let h ← newMsg s.heap sizeofHashItem com c
      some (s.link c.bucket com c.n h, 1)
  else do
    let h ← newMsg s.heap c.n c.msg c
    some (s.link c.bucket c.msg c.n h, 1)

def regStep (s : RegState) (c : RegCall) : Option RegState := (regToTableHeap s c).map Prod.fst

/-- Every item's pointer designates a live block that starts with the bytes of
its registration message. -/
def RegState.Owned (s : RegState) : Prop :=
  ∀ i, ∀ it ∈ (s.table i).group,
    ∃ b, s.heap.block it.msg = some b ∧ b.take it.reg.length = it.reg

/-- The id is met on the chain of its bucket. -/
def RegState.Known (s : RegState) (c : RegCall) : Prop :=
  ∃ it ∈ (s.table c.bucket).group, ∃ b, s.heap.block it.msg = some b ∧
    strncmp lenDevid (devId c.msg) (devId b) = 0

/-- Storing the key object's word changes none of the first `n` bytes. -/
def RegCall.KeyFits (c : RegCall) (rsa : RsaWord) : Prop :=
  msgLen c.msg = uint16ToArr 8 lenU16int ∧
    (msgData (c.msg.take c.n)).take 8 = rsa.toList.take (c.n - sizeofMsgCommon)

/-- The calls that leave the table's messages intact: of a known id, or into an
empty bucket with no key found, or with a key stored in place over equal bytes. -/
def RegCall.Safe (s : RegState) (c : RegCall) : Prop :=
  s.Known c ∨ (s.table c.bucket).group = [] ∧
    ∀ rsa, c.rsa = some rsa → c.moves = false ∧ c.KeyFits rsa

/-! ### What a call does to the heap -/

/-- The block after `put_pubkey_msg` resized it in place and wrote to it. -/
def keyedBlock (b : Bytes) (n : ℕ) (junk : Bytes) (rsa : RsaWord) : Bytes :=
  memcpy (memcpy (memcpy (ByteHeap.resize b (n + 8) junk) sizeofMsgCommon (zeros 8))
    sizeofMsgCommon rsa.toList) offLen (uint16ToArr 8 lenU16int)

theorem keyedBlock_take {b : Bytes} {n : ℕ} (hb : b.length = n) (hn : sizeofMsgCommon ≤ n)
    (junk : Bytes) (rsa : RsaWord) :
    (keyedBlock b n junk rsa).take n =
      b.take offLen ++ uint16ToArr 8 lenU16int ++ rsa.toList.take (n - sizeofMsgCommon) ++
        b.drop 108 := by
  have hR : (ByteHeap.resize b (n + 8) junk).length = n + 8 := ByteHeap.resize_length _ _ _
  have hRb : (ByteHeap.resize b (n + 8) junk).take n = b := by
    have hgrow : (ByteHeap.resize b (n + 8) junk).take b.length = b :=
      ByteHeap.resize_take (by omega)
    rwa [hb] at hgrow
  simp only [sizeofMsgCommon] at hn
  have hlen2 : (uint16ToArr 8 lenU16int).length = 2 := uint16ToArr_length _ _
  rw [keyedBlock, memcpy_memcpy_same (by rw [hR]; simp; omega) (by simp),
    memcpy_memcpy_adjacent (by rw [hlen2]) (by rw [hR]; simp; omega), memcpy]
  set R := ByteHeap.resize b (n + 8) junk
  have htake : R.take offLen = b.take offLen := by
    rw [← hRb, List.take_take, Nat.min_eq_left (by simp; omega)]
  have hdrop : (R.drop 108).take (n - 108) = b.drop 108 := by
    rw [← hRb, List.drop_take]
  have hfront : (b.take offLen ++ uint16ToArr 8 lenU16int).length = 100 := by simp; omega
  have hall : offLen + (uint16ToArr 8 lenU16int ++ rsa.toList).length = 108 := by simp
  rw [htake, hall, ← List.append_assoc, List.append_assoc, List.take_append, hfront,
    List.take_of_length_le (by rw [hfront]; omega), List.take_append, Vector.length_toList,
    show n - 100 - 8 = n - 108 by omega, hdrop, List.append_assoc, List.append_assoc,
    List.append_assoc]

/-- Storing the key keeps the first `n` bytes exactly when it writes equal ones. -/
theorem keyedBlock_take_eq_iff {b : Bytes} {n : ℕ} (hb : b.length = n) (hn : sizeofMsgCommon ≤ n)
    (junk : Bytes) (rsa : RsaWord) :
    (keyedBlock b n junk rsa).take n = b ↔
      msgLen b = uint16ToArr 8 lenU16int ∧
        (msgData b).take 8 = rsa.toList.take (n - sizeofMsgCommon) := by
  rw [keyedBlock_take hb hn junk rsa]
  simp only [sizeofMsgCommon] at hn
  have hsplit : b = b.take offLen ++ msgLen b ++ (msgData b).take 8 ++ b.drop 108 := by
    have h1 : msgLen b ++ (msgData b).take 8 ++ b.drop 108 = b.drop offLen := by
      have h2 : (msgData b).take 8 ++ b.drop 108 = b.drop 100 := by
        rw [← List.take_append_drop 8 (b.drop 100), List.drop_drop]
        rfl
      rw [List.append_assoc, h2, ← List.take_append_drop lenU16int (b.drop offLen), List.drop_drop]
      rfl
    rw [List.append_assoc, List.append_assoc, ← List.append_assoc (msgLen b), h1,
      List.take_append_drop]
  have hl1 : (uint16ToArr 8 lenU16int).length = (msgLen b).length := by
    simp [msgLen]
    omega
  have hl2 : (rsa.toList.take (n - sizeofMsgCommon)).length = ((msgData b).take 8).length := by
    simp [msgData]
    omega
  conv_lhs => rhs; rw [hsplit]
  constructor
  · intro h
    have h3 := List.append_cancel_right h
    rw [List.append_assoc, List.append_assoc] at h3
    obtain ⟨h4, h5⟩ := List.append_inj (List.append_cancel_left h3) hl1
    exact ⟨h4.symm, h5.symm⟩
  · rintro ⟨h1, h2⟩
    rw [h1, h2]

/-- The three writes to the resized block. -/
theorem storeKey_live {h : ByteHeap} {m n : ℕ} {b junk : Bytes} (hn : sizeofMsgCommon ≤ n)
    (hb : h.block m = some (ByteHeap.resize b (n + 8) junk)) (rsa : RsaWord) :
    ∃ h', (do
        let h ← h.store m sizeofMsgCommon (zeros 8)
        let h ← h.store m sizeofMsgCommon rsa.toList
        h.store m offLen (uint16ToArr 8 lenU16int)) = some h' ∧
      h'.block m = some (keyedBlock b n junk rsa) ∧ ∀ x, x ≠ m → h'.block x = h.block x := by
  simp only [sizeofMsgCommon] at hn
  have hlen : (ByteHeap.resize b (n + 8) junk).length = n + 8 := ByteHeap.resize_length _ _ _
  have hfit : sizeofMsgCommon + (zeros 8).length ≤ (ByteHeap.resize b (n + 8) junk).length := by
    rw [hlen]
    simp
    omega
  obtain ⟨h1, hst1, hb1, hother1, _⟩ := ByteHeap.store_live hb hfit
  have hlen1 := (memcpy_length hfit).trans hlen
  have hfit1 : sizeofMsgCommon + rsa.toList.length ≤
      (memcpy (ByteHeap.resize b (n + 8) junk) sizeofMsgCommon (zeros 8)).length := by
    rw [hlen1]
    simp
    omega
  obtain ⟨h2, hst2, hb2, hother2, _⟩ := ByteHeap.store_live hb1 hfit1
  have hlen2 := (memcpy_length hfit1).trans hlen1
  have hfit2 : offLen + (uint16ToArr 8 lenU16int).length ≤ (memcpy
      (memcpy (ByteHeap.resize b (n + 8) junk) sizeofMsgCommon (zeros 8)) sizeofMsgCommon
        rsa.toList).length := by
    rw [hlen2]
    simp
    omega
  obtain ⟨h3, hst3, hb3, hother3, _⟩ := ByteHeap.store_live hb2 hfit2
  refine ⟨h3, ?_, hb3, ?_⟩
  · simp only [hst1, hst2, hst3, bind, Option.bind_some]
  · intro x hx
    rw [hother3 x hx, hother2 x hx, hother1 x hx]

/-- Everything `put_pubkey_msg` can do to the live block of a new item. -/
theorem putPubkeyMsgHeap_cases {h : ByteHeap} {m : ℕ} {b : Bytes} (hm : h.block m = some b)
    (c : RegCall) :
    ∃ h', putPubkeyMsgHeap h m c = some h' ∧
      (∀ x, x < h.next → x ≠ m → h'.block x = h.block x) ∧
      h'.block m = match c.rsa with
        | none => some b
        | some rsa => if c.moves then none else some (keyedBlock b c.n c.junk rsa) := by
  cases hrsa : c.rsa with
  | none => exact ⟨h, by simp [putPubkeyMsgHeap, hrsa], fun _ _ _ => rfl, hm⟩
  | some rsa =>
    obtain ⟨m', h1, hre, hb1, hmv, hother1⟩ :=
      ByteHeap.realloc_live (n := c.n + 8) hm c.junk c.moves
    obtain ⟨h2, hstores, hb2, hother2⟩ := storeKey_live c.header_le hb1 rsa
    refine ⟨h2, ?_, ?_, ?_⟩
    · simpa only [putPubkeyMsgHeap, hrsa, hre, bind, Option.bind_some] using hstores
    · intro x hx hxm
      have hxm' : x ≠ m' := by
        cases hmoves : c.moves <;> simp only [hmoves, if_true, if_false, Bool.false_eq_true] at hmv
        · rw [hmv]; exact hxm
        · rw [hmv.1]; omega
      rw [hother2 x hxm', hother1 x hx hxm]
    · cases hmoves : c.moves with
      | false =>
        simp only [hmoves, if_false, Bool.false_eq_true] at hmv ⊢
        rw [← hmv]
        exact hb2
      | true =>
        -- the new block stands at the next address, the old one is dead
        simp only [hmoves, if_true] at hmv ⊢
        have hne : m ≠ m' := by
          have := h.lt_next hm
          omega
        rw [hother2 m hne, hmv.2]

/-- A message of at least a header does not fit in a block of `sizeof(HASH_ITEM)`. -/
theorem newMsg_small (h : ByteHeap) {com : Bytes} {c : RegCall} (hlen : c.n ≤ com.length) :
    newMsg h sizeofHashItem com c = none := by
  have hn : 100 ≤ c.n := c.header_le
  have hstore : (h.malloc sizeofHashItem).2.store h.next 0 (com.take c.n) = none := by
    rw [Option.eq_none_iff_forall_ne_some]
    intro h' hs
    obtain ⟨b, hb, hfit, _⟩ := ByteHeap.store_eq_some_iff.mp hs
    rw [ByteHeap.malloc_block] at hb
    cases hb
    simp at hfit
    omega
  simp [newMsg, ByteHeap.malloc] at hstore ⊢
  simp [hstore]

/-- What the allocation of `n` bytes leaves at the new address. -/
theorem newMsg_cases (h : ByteHeap) (c : RegCall) :
    ∃ h', newMsg h c.n c.msg c = some h' ∧
      (∀ x, x < h.next → h'.block x = h.block x) ∧
      h'.block h.next = match c.rsa with
        | none => some (c.msg.take c.n)
        | some rsa =>
          if c.moves then none else some (keyedBlock (c.msg.take c.n) c.n c.junk rsa) := by
  have hlen : (c.msg.take c.n).length = c.n := by simp [c.n_le]
  have hfit : 0 + (c.msg.take c.n).length ≤ (zeros c.n).length := by simp
  obtain ⟨h1, hst, hb1, hother1, hnext1⟩ :=
    ByteHeap.store_live (ByteHeap.malloc_block (h := h) c.n) hfit
  have hcopy : memcpy (zeros c.n) 0 (c.msg.take c.n) = c.msg.take c.n := by
    simp [memcpy, hlen]
  rw [hcopy] at hb1
  obtain ⟨h2, hput, hother2, hb2⟩ := putPubkeyMsgHeap_cases hb1 c
  refine ⟨h2, ?_, ?_, hb2⟩
  · simp only [newMsg]
    rw [show (h.malloc c.n).1 = h.next from rfl, hst]
    exact hput
  · intro x hx
    rw [hother2 x (by rw [hnext1, ByteHeap.malloc_next]; omega) (by omega),
      hother1 x (by omega), ByteHeap.malloc_block_of_lt hx]

/-! ### The invariant over every sequence of registrations -/

theorem owned_empty : RegState.empty.Owned := by
  intro i it hit
  simp [RegState.empty] at hit

/-- Over live messages the walk decides whether the id is met. -/
theorem chainWalkHeap_eq (h : ByteHeap) (id : Bytes) {n j : ℕ} {l : List MsgItem}
    (hlive : ∀ it ∈ l, ∃ b, h.block it.msg = some b) (hn : j + l.length ≤ n) :
    ∃ found, chainWalkHeap h id n j l = some found ∧
      (found = true ↔
        ∃ it ∈ l, ∃ b, h.block it.msg = some b ∧ strncmp lenDevid id (devId b) = 0) := by
  induction l generalizing j with
  | nil => exact ⟨false, rfl, by simp⟩
  | cons it rest ih =>
    obtain ⟨b, hb⟩ := hlive it (by simp)
    rw [List.length_cons] at hn
    by_cases hk : strncmp lenDevid id (devId b) = 0
    · exact ⟨true, by simp [chainWalkHeap, hb, hk], by simp [hb, hk]⟩
    · by_cases hstop : n ≤ j + 1
      · have hrest : rest = [] := List.length_eq_zero_iff.mp (by omega)
        exact ⟨false, by simp [chainWalkHeap, hb, hk, hstop], by simp [hrest, hb, hk]⟩
      · obtain ⟨found, hw, hf⟩ := ih (j := j + 1) (fun x hx => hlive x (by simp [hx])) (by omega)
        refine ⟨found, by simp [chainWalkHeap, hb, hk, hstop, hw], ?_⟩
        rw [hf]
        simp [hb, hk]

/-- Everything a registration does when the messages of its bucket are live. -/
theorem regToTableHeap_cases_of_live {s : RegState} (c : RegCall)
    (hlive : ∀ it ∈ (s.table c.bucket).group, ∃ b, s.heap.block it.msg = some b) :
    (s.Known c ∧ regToTableHeap s c = some (s, 0)) ∨
    (¬ s.Known c ∧ (s.table c.bucket).group ≠ [] ∧ regToTableHeap s c = none) ∨
    (¬ s.Known c ∧ (s.table c.bucket).group = [] ∧ ∃ h, newMsg s.heap c.n c.msg c = some h ∧
      regToTableHeap s c = some (s.link c.bucket c.msg c.n h, 1)) := by
  have hcount := (s.table c.bucket).counted
  by_cases hz : (s.table c.bucket).n = 0
  · have hnil : (s.table c.bucket).group = [] := List.length_eq_zero_iff.mp (by omega)
    obtain ⟨h, hnew, _, _⟩ := newMsg_cases s.heap c
    exact Or.inr (Or.inr ⟨by simp [RegState.Known, hnil], hnil, h, hnew,
      by simp [regToTableHeap, hz, hnew]⟩)
  · have hne : (s.table c.bucket).group ≠ [] := by
      intro h
      rw [h] at hcount
      exact hz hcount
    obtain ⟨found, hw, hf⟩ := chainWalkHeap_eq s.heap (devId c.msg) (n := (s.table c.bucket).n)
      (j := 0) hlive (by omega)
    have hknown : s.Known c ↔ found = true := hf.symm
    cases found with
    | true => exact Or.inl ⟨hknown.mpr rfl, by simp [regToTableHeap, hz, hw]⟩
    | false =>
      have hlen : c.n ≤ (putTimeToMsg c.msg c.t).length := by
        rw [putTimeToMsg_length (c.header_le.trans c.n_le)]
        exact c.n_le
      refine Or.inr (Or.inl ⟨by simp [hknown], hne, ?_⟩)
      simp [regToTableHeap, hz, hw, newMsg_small s.heap hlen]

/-- Everything a registration does in a state that owns its messages. -/
theorem regToTableHeap_cases {s : RegState} (hs : s.Owned) (c : RegCall) :
    (s.Known c ∧ regToTableHeap s c = some (s, 0)) ∨
    (¬ s.Known c ∧ (s.table c.bucket).group ≠ [] ∧ regToTableHeap s c = none) ∨
    (¬ s.Known c ∧ (s.table c.bucket).group = [] ∧ ∃ h, newMsg s.heap c.n c.msg c = some h ∧
      regToTableHeap s c = some (s.link c.bucket c.msg c.n h, 1)) := by
  apply regToTableHeap_cases_of_live
  intro it hit
  obtain ⟨b, hb, _⟩ := hs _ it hit
  exact ⟨b, hb⟩

/-- Linking a new item keeps the messages owned exactly when its own block is
live and starts with the bytes copied. -/
theorem owned_link_iff {s : RegState} (hs : s.Owned) {i : ℕ} {com : Bytes} {n : ℕ} {h : ByteHeap}
    (hold : ∀ x, x < s.heap.next → h.block x = s.heap.block x) :
    (s.link i com n h).Owned ↔
      ∃ b, h.block s.heap.next = some b ∧ b.take (com.take n).length = com.take n := by
  constructor
  · intro ho
    exact ho i ⟨noAddr, s.heap.next, com.take n⟩ (by simp [RegState.link])
  · intro hnew j it hit
    have hcases : it ∈ (s.table j).group ∨ it = ⟨noAddr, s.heap.next, com.take n⟩ := by
      by_cases hj : j = i
      · subst hj
        simp only [RegState.link, Function.update_self, List.mem_cons] at hit
        exact hit.symm
      · simp only [RegState.link, Function.update_of_ne hj] at hit
        exact Or.inl hit
    rcases hcases with hit | rfl
    · obtain ⟨b, hb, hreg⟩ := hs j it hit
      exact ⟨b, (hold _ (s.heap.lt_next hb)).trans hb, hreg⟩
    · exact hnew

/-- In an empty bucket: the key object's word must not disturb the new block. -/
theorem newMsg_holds_iff {c : RegCall} {b' : Option Bytes}
    (hb' : b' = match c.rsa with
      | none => some (c.msg.take c.n)
      | some rsa => if c.moves then none else some (keyedBlock (c.msg.take c.n) c.n c.junk rsa)) :
    (∃ b, b' = some b ∧ b.take (c.msg.take c.n).length = c.msg.take c.n) ↔
      ∀ rsa, c.rsa = some rsa → c.moves = false ∧ c.KeyFits rsa := by
  have hlen : (c.msg.take c.n).length = c.n := by simp [c.n_le]
  have hmsgLen : msgLen (c.msg.take c.n) = msgLen c.msg := by
    have hn : 100 ≤ c.n := c.header_le
    rw [msgLen, msgLen, List.drop_take, List.take_take, Nat.min_eq_left (by simp; omega)]
  subst hb'
  cases hrsa : c.rsa with
  | none => simp [List.take_of_length_le]
  | some rsa =>
    have hkey := keyedBlock_take_eq_iff hlen c.header_le c.junk rsa
    rw [hmsgLen] at hkey
    cases hm : c.moves with
    | true => simp
    | false => simpa [hlen, RegCall.KeyFits] using hkey

/-- A step from an owned state ends in one exactly when the call is safe there. -/
theorem regStep_owned_iff {s : RegState} (hs : s.Owned) (c : RegCall) :
    c.Safe s ↔ ∃ s', regStep s c = some s' ∧ s'.Owned := by
  rcases regToTableHeap_cases hs c with ⟨hk, hr⟩ | ⟨hk, hne, hr⟩ | ⟨hk, hnil, h, hnew, hr⟩
  · exact ⟨fun _ => ⟨s, by simp [regStep, hr], hs⟩, fun _ => Or.inl hk⟩
  · constructor
    · rintro (hsafe | ⟨hnil, _⟩)
      · exact absurd hsafe hk
      · exact absurd hnil hne
    · rintro ⟨s', hs', _⟩
      simp [regStep, hr] at hs'
  · obtain ⟨h', hnew', hold, hblock⟩ := newMsg_cases s.heap c
    cases hnew.symm.trans hnew'
    have hsafe : c.Safe s ↔ ∀ rsa, c.rsa = some rsa → c.moves = false ∧ c.KeyFits rsa := by
      simp [RegCall.Safe, hk, hnil]
    rw [hsafe, ← newMsg_holds_iff hblock, ← owned_link_iff (i := c.bucket) hs hold]
    simp [regStep, hr]

/-- Every registration of a run copies inside its blocks and leaves every stored
pointer at a live block with its message exactly when every call is safe. -/
theorem registrations_owned_iff (calls : List RegCall) :
    Stays regStep RegState.Owned RegState.empty calls ↔
      AllSteps regStep (fun s c => c.Safe s) RegState.empty calls :=
  stays_iff_allSteps (fun _ c hs => regStep_owned_iff hs c) owned_empty calls

/-- Two ids of one bucket: the second message is copied into 96 bytes. -/
theorem registration_overflows_on_collision :
    ¬ ∀ calls : List RegCall, Stays regStep RegState.Owned RegState.empty calls := by
  intro h
  let first : RegCall := ⟨header msgReg gNtfCli [50, 98] [], 100, none, none, false, [],
    by decide, by decide⟩
  let second : RegCall := ⟨header msgReg gNtfCli [121, 97] [], 100, none, none, false, [],
    by decide, by decide⟩
  obtain ⟨s', hrun, _⟩ := (h [first, second]).run
  have hnone : (run regStep RegState.empty [first, second]).isSome = false := by decide +kernel
  rw [hrun] at hnone
  cases hnone

/-! ### The table of values behind the heap -/

/-- The heap item holds the address and the id of the item by value. -/
def ByteHeap.Holds (h : ByteHeap) (it : MsgItem) (hitem : HashItem) : Prop :=
  it.ipv4 = hitem.ipv4 ∧ ∃ b, h.block it.msg = some b ∧ idKey (devId b) = itemKey hitem

/-- The buckets hold the same items in the same order. -/
def RegState.Represents (s : RegState) (T : Table) : Prop :=
  ∀ i, List.Forall₂ (ByteHeap.Holds s.heap) (s.table i).group (T i).group

def RegCall.op (c : RegCall) : TableOp := .reg c.msg c.n c.t c.rsa

theorem RegCall.op_sized (c : RegCall) : c.op.Sized := ⟨c.header_le, c.n_le⟩

theorem represents_empty : RegState.empty.Represents emptyTable :=
  fun _ => List.Forall₂.nil

/-- The id is met on the heap chain exactly when it is a key of the bucket. -/
theorem known_iff {s : RegState} {T : Table} (hR : s.Represents T) (c : RegCall) :
    s.Known c ↔ ∃ it ∈ (T (hashId (devId c.msg))).group, itemKey it = idKey (devId c.msg) := by
  have hwalk : ∀ {l : List MsgItem} {l' : List HashItem},
      List.Forall₂ (ByteHeap.Holds s.heap) l l' →
      ((∃ it ∈ l, ∃ b, s.heap.block it.msg = some b ∧
          strncmp lenDevid (devId c.msg) (devId b) = 0) ↔
        ∃ it ∈ l', itemKey it = idKey (devId c.msg)) := by
    intro l l' hl
    induction hl with
    | nil => simp
    | @cons _ y _ _ hit _ ih =>
      obtain ⟨_, b, hb, hkey⟩ := hit
      have hhead : strncmp lenDevid (devId c.msg) (devId b) = 0 ↔
          itemKey y = idKey (devId c.msg) := by
        rw [strncmp_id_iff, hkey]
        exact eq_comm
      simp only [List.exists_mem_cons_iff, ih, hb, Option.some.injEq, exists_eq_left', hhead]
  exact hwalk (hR _)

/-- A safe call returns what the table of values returns and keeps representing it. -/
theorem regToTableHeap_represents {s : RegState} {T : Table} (hs : s.Owned) (hR : s.Represents T)
    (hinv : TableInv T) {c : RegCall} (hsafe : c.Safe s) :
    ∃ s', regToTableHeap s c = some (s', (tableStep T c.op).2) ∧ s'.Owned ∧
      s'.Represents (tableStep T c.op).1 := by
  obtain ⟨s', hstep, hown⟩ := (regStep_owned_iff hs c).mp hsafe
  have hknown := known_iff hR c
  rcases regToTableHeap_cases hs c with ⟨hk, hr⟩ | ⟨_, _, hr⟩ | ⟨hk, _, h, hnew, hr⟩
  · rcases regToTable_cases hinv c.header_le c.n_le c.t c.rsa with ⟨_, hres, hT⟩ | ⟨hno, _, _⟩
    · exact ⟨s, by rw [hr, RegCall.op, tableStep, hres], hs,
        by rw [RegCall.op, tableStep, hT]; exact hR⟩
    · obtain ⟨it, hit, hkey⟩ := hknown.mp hk
      exact absurd hkey (hno it hit)
  · simp [regStep, hr] at hstep
  · rcases regToTable_cases hinv c.header_le c.n_le c.t c.rsa with
      ⟨hex, _, _⟩ | ⟨_, hres, it, hkey, hip, hT⟩
    · exact absurd (hknown.mpr hex) hk
    · obtain ⟨h', hnew', hold, _⟩ := newMsg_cases s.heap c
      cases hnew.symm.trans hnew'
      have hs' : s.link c.bucket c.msg c.n h = s' := by simpa [regStep, hr] using hstep
      subst hs'
      refine ⟨_, by rw [hr, RegCall.op, tableStep, hres], hown, ?_⟩
      have hframe : ∀ x y, ByteHeap.Holds s.heap x y → ByteHeap.Holds h x y := by
        rintro x y ⟨hxy, b, hb, hby⟩
        exact ⟨hxy, b, (hold _ (s.heap.lt_next hb)).trans hb, hby⟩
      obtain ⟨b, hb, htake⟩ := (owned_link_iff (i := c.bucket) hs hold).mp hown
      have hid : idKey (devId b) = itemKey it := by
        rw [hkey]
        apply idKey_devId_congr
        rw [List.length_take, Nat.min_eq_left c.n_le] at htake
        have hheader : offSecond ≤ c.n := by
          have := c.header_le
          simp at *
          omega
        have hsecond := congrArg (List.take offSecond) htake
        rwa [List.take_take, List.take_take, Nat.min_eq_left hheader] at hsecond
      intro i
      rw [RegCall.op, tableStep, hT]
      by_cases hi : i = c.bucket
      · subst hi
        simp only [RegState.link, Function.update_self, RegCall.bucket]
        exact List.Forall₂.cons ⟨hip.symm, b, hb, hid⟩ ((hR _).imp hframe)
      · simp only [RegState.link, Function.update_of_ne hi]
        rw [Function.update_of_ne (by exact hi)]
        exact (hR i).imp hframe

/-- A run of safe calls ends representing the table those calls build. -/
theorem registrations_represent {calls : List RegCall}
    (h : AllSteps regStep (fun s c => c.Safe s) RegState.empty calls) :
    ∃ s', run regStep RegState.empty calls = some s' ∧
      s'.Represents (exec tableStep emptyTable (calls.map RegCall.op)).1 := by
  suffices hgen : ∀ (s : RegState) (T : Table), s.Owned → s.Represents T → TableInv T →
      AllSteps regStep (fun s c => c.Safe s) s calls → ∃ s', run regStep s calls = some s' ∧
        s'.Represents (exec tableStep T (calls.map RegCall.op)).1 from
    hgen _ _ owned_empty represents_empty tableInv_empty h
  clear h
  induction calls with
  | nil => exact fun s T _ hR _ _ => ⟨s, rfl, hR⟩
  | cons c rest ih =>
    intro s T hs hR hinv hall
    obtain ⟨s', hstep, hown, hrep⟩ := regToTableHeap_represents hs hR hinv hall.1
    have hreg : regStep s c = some s' := by simp [regStep, hstep]
    obtain ⟨s'', hrun, hend⟩ := ih s' _ hown hrep (tableStep_inv hinv c.op_sized) (hall.2 s' hreg)
    exact ⟨s'', by rw [run_cons, hreg]; exact hrun, by rw [List.map_cons, exec_cons]; exact hend⟩

end MemoryLeak.Notify
