import MemoryLeak.Notify.Message
import Mathlib.Data.Nat.Digits.Defs

/-!
# dum_msg

The text that `dum_msg` prints into its buffer, as the lengths `sprintf` returns.
A read outside a name table, or a text that does not fit, is a fault.
-/
namespace MemoryLeak.Notify
open MemoryLeak.CBytes

/-- `text`, the names of the types. -/
def typeText : List String := ["Register", "Trace", "Notify", "Confirm", ""]

/-- `ifr`, the names of the routes. -/
def ifrText : List String :=
  ["From a notifier to server", "The server forwards to client",
   "From the server feedback to a notifier",
   " From a client to the server in order to confirm",
   "From the notifier feedback to the server to confirm and clean the list", ""]

/-- `sizeof(buf)`. -/
@[simp] abbrev dumBuf : ℕ := 2048

/-- `len += n; n = sprintf(buf + len, ..)` for a text of `n` bytes. -/
def sprintfAt (len n : ℕ) : Option ℕ := if len + n + 1 ≤ dumBuf then some (len + n) else none

/-- The value that `%d` prints for the `short` read from `item->len`. -/
def ldta (item : Bytes) : ℤ :=
  let v := arrToUint16 (msgLen item) lenU16int
  if v < 32768 then v else (v : ℤ) - 65536

/-- `dum_msg` where `ifr[ifro]` finds the names `ifr`. -/
def dumMsgIn (ifr : List String) (f fu : String) (line : ℕ) (item : Bytes) : Option ℕ := do
  let text ← typeText[(msgType item).toNat]?
  let len ← sprintfAt 0 ("------File: ".length + f.length + ", Func: ".length + fu.length +
    " line: ".length + (toString line).length + " -------- Type of message: ".length +
    text.length + ". ".length)
  let len ← sprintfAt len ("------Device ID: ".length + strlen (devId item) + ". ".length)
  let len ← sprintfAt len ("------Notifier ID: ".length + strlen (ntfId item) + ". ".length)
  let sz := min maxMsg (strlen (devId item))
  let len ← sprintfAt len ("-------- Hash number device id: ".length +
    (toString (hashFunc (devId item) sz)).length + ". ".length)
  let len ← sprintfAt len ("-------- Hash number notifier id: ".length +
    (toString (hashFunc (ntfId item) sz)).length + ". ".length)
  let ifr ← ifr[(ifroute item).toNat]?
  let len ← sprintfAt len ("-------- ifroute: ".length + ifr.length + ". ".length)
  let len ← sprintfAt len ("-------- Len data: ".length + (toString (ldta item)).length +
    ". ".length)
  sprintfAt len ("-------- (sec, nano) = (".length +
    (toString (arrToUint64 (second item) lenU64int)).length + ", ".length +
    (toString (arrToUint64 (nano item) lenU64int)).length + ")".length)

/-- `dum_msg` with the six names of the source. -/
def dumMsg (f fu : String) (line : ℕ) (item : Bytes) : Option ℕ :=
  dumMsgIn ifrText f fu line item

/-- The length of the names that the text of a message contains. -/
def namesLength (item : Bytes) : ℕ :=
  (typeText.getD (msgType item).toNat "").length + (ifrText.getD (ifroute item).toNat "").length

/-- The length of the numbers that the text of a message contains. -/
def numbersLength (item : Bytes) : ℕ :=
  let sz := min maxMsg (strlen (devId item))
  (toString (hashFunc (devId item) sz)).length + (toString (hashFunc (ntfId item) sz)).length +
    (toString (ldta item)).length + (toString (arrToUint64 (second item) lenU64int)).length +
    (toString (arrToUint64 (nano item) lenU64int)).length

/-- Both bytes index their tables, and the ids leave room for the rest of the text. -/
def DumFits (f fu : String) (line : ℕ) (item : Bytes) : Prop :=
  (msgType item).toNat < 5 ∧ (ifroute item).toNat < 6 ∧
    strlen (devId item) + strlen (ntfId item) + namesLength item + numbersLength item +
      f.length + fu.length + (toString line).length + 234 < dumBuf

/-- The lengths of the fixed pieces, 234 with the dot and blank taken seven times. -/
theorem piece_lengths :
    "------File: ".length = 12 ∧ ", Func: ".length = 8 ∧ " line: ".length = 7 ∧
      " -------- Type of message: ".length = 27 ∧ ". ".length = 2 ∧
      "------Device ID: ".length = 17 ∧ "------Notifier ID: ".length = 19 ∧
      "-------- Hash number device id: ".length = 32 ∧
      "-------- Hash number notifier id: ".length = 34 ∧ "-------- ifroute: ".length = 18 ∧
      "-------- Len data: ".length = 19 ∧ "-------- (sec, nano) = (".length = 24 ∧
      ", ".length = 2 ∧ ")".length = 1 := by decide

theorem sprintfAt_bind_isSome (len n : ℕ) (k : ℕ → Option ℕ) :
    ((sprintfAt len n).bind k).isSome ↔ len + n + 1 ≤ dumBuf ∧ (k (len + n)).isSome := by
  rw [sprintfAt]
  split_ifs with h
  · simp [h]
  · simp [h]

theorem dumMsgIn_isSome_iff (ifr : List String) (f fu : String) (line : ℕ) (item : Bytes) :
    (dumMsgIn ifr f fu line item).isSome ↔
      (msgType item).toNat < 5 ∧ (ifroute item).toNat < ifr.length ∧
        strlen (devId item) + strlen (ntfId item) + (typeText.getD (msgType item).toNat "").length +
          (ifr.getD (ifroute item).toNat "").length + numbersLength item + f.length + fu.length +
          (toString line).length + 234 < dumBuf := by
  by_cases htype : (msgType item).toNat < 5
  · by_cases hroute : (ifroute item).toNat < ifr.length
    · have ht : typeText[(msgType item).toNat]? =
          some (typeText.getD (msgType item).toNat "") := by
        rw [List.getD_eq_getElem?_getD, List.getElem?_eq_getElem (by simpa [typeText] using htype)]
        rfl
      have hr : ifr[(ifroute item).toNat]? = some (ifr.getD (ifroute item).toNat "") := by
        rw [List.getD_eq_getElem?_getD, List.getElem?_eq_getElem hroute]
        rfl
      simp only [dumMsgIn, bind, ht, hr, Option.bind_some, sprintfAt_bind_isSome, htype,
        hroute, true_and, numbersLength]
      have hlast : ∀ len n, (sprintfAt len n).isSome ↔ len + n + 1 ≤ dumBuf := by
        intro len n
        simpa using sprintfAt_bind_isSome len n some
      rw [hlast]
      have hlit := piece_lengths
      simp only [dumBuf]
      omega
    · have hr : ifr[(ifroute item).toNat]? = none := by
        simpa using hroute
      have hnone : (dumMsgIn ifr f fu line item).isSome = false := by
        simp only [dumMsgIn, bind, hr, Option.bind_none, Option.bind_fun_none, Option.isSome_none]
      simp [hnone, hroute]
  · have ht : typeText[(msgType item).toNat]? = none := by
      simpa [typeText] using htype
    simp [dumMsgIn, ht, htype]

theorem dumMsg_isSome_iff (f fu : String) (line : ℕ) (item : Bytes) :
    (dumMsg f fu line item).isSome ↔ DumFits f fu line item := by
  rw [dumMsg, dumMsgIn_isSome_iff, DumFits, namesLength, ← Nat.add_assoc]
  rfl

/-! ### Messages that fit -/

theorem toString_nat_length {n e : ℕ} (he : 0 < e) (h : n < 10 ^ e) :
    (toString n).length ≤ e := Nat.repr_length n e he h

theorem toString_int_length {z : ℤ} {e : ℕ} (he : 0 < e) (h : z.natAbs < 10 ^ e) :
    (toString z).length ≤ e + 1 := by
  cases z with
  | ofNat n => exact (Nat.repr_length n e he h).trans (Nat.le_succ e)
  | negSucc n =>
    have hlen : (toString (Int.negSucc n)).length = 1 + (Nat.repr (n + 1)).length :=
      String.length_append "-" (Nat.repr (n + 1))
    have hdigits := Nat.repr_length (n + 1) e he h
    omega

theorem arrToUint_lt (w : ℕ) (arr : Bytes) (sz : ℕ) : arrToUint w arr sz < 2 ^ w := by
  induction sz with
  | zero => exact Nat.two_pow_pos w
  | succ sz ih => exact Nat.or_lt_two_pow ih (Nat.mod_lt _ (Nat.two_pow_pos w))

theorem numbersLength_le (item : Bytes) : numbersLength item ≤ 56 := by
  have hhash : ∀ id n, (toString (hashFunc id n)).length ≤ 5 := fun id n =>
    toString_nat_length (by decide) ((hashFunc_lt id n).trans (by decide))
  have hlong : ∀ arr, (toString (arrToUint64 arr lenU64int)).length ≤ 20 := fun arr =>
    toString_nat_length (by decide) ((arrToUint_lt 64 arr _).trans (by decide))
  have hshort : (toString (ldta item)).length ≤ 6 := by
    have hlt : arrToUint16 (msgLen item) lenU16int < 2 ^ 16 := arrToUint_lt 16 _ _
    refine toString_int_length (e := 5) (by decide) ?_
    rw [ldta]
    split <;> omega
  have hdev := hhash (devId item) (min maxMsg (strlen (devId item)))
  have hntf := hhash (ntfId item) (min maxMsg (strlen (devId item)))
  have hsec := hlong (second item)
  have hnano := hlong (nano item)
  simp only [numbersLength]
  omega

theorem strlen_le_add_drop (s : Bytes) (k : ℕ) : strlen s ≤ k + strlen (s.drop k) := by
  induction k generalizing s with
  | zero => rw [Nat.zero_add, List.drop_zero]
  | succ k ih =>
    cases s with
    | nil => exact Nat.zero_le _
    | cons a s =>
      have hcons : strlen (a :: s) ≤ 1 + strlen s := by
        by_cases ha : a = 0
        · rw [ha, strlen_zero_cons]
          exact Nat.zero_le _
        · rw [show a :: s = [a] ++ s from rfl, strlen_append (by simpa using ha)]
          rfl
      have hrest := ih s
      rw [List.drop_succ_cons]
      omega

/-- A message with a type that has a name and an id of the notifier that ends in its field. -/
structure Printable (item : Bytes) : Prop where
  type_lt : (msgType item).toNat < 5
  ntf : Terminated (ntfId item)

/-- Its text fits if its route has a name that is not too long. -/
theorem Printable.dumMsgIn_isSome {item : Bytes} (h : Printable item) {ifr : List String}
    {name : String} (hname : ifr[(ifroute item).toNat]? = some name) (hshort : name.length ≤ 1024)
    {f fu : String} {line : ℕ} (hplace : f.length + fu.length + (toString line).length ≤ 64) :
    (dumMsgIn ifr f fu line item).isSome := by
  obtain ⟨hroute, _⟩ := List.getElem?_eq_some_iff.mp hname
  have hntf : strlen (ntfId item) < 40 := h.ntf
  have hdev : strlen (devId item) ≤ 40 + strlen (ntfId item) := by
    have hdrop : ntfId item = (devId item).drop 40 := by
      rw [devId, List.drop_drop]
      rfl
    rw [hdrop]
    exact strlen_le_add_drop (devId item) 40
  have htype : (typeText.getD (msgType item).toNat "").length ≤ 8 := by
    have hall : ∀ k < 5, (typeText.getD k "").length ≤ 8 := by decide
    exact hall _ h.type_lt
  have hnumbers := numbersLength_le item
  have hifr : (ifr.getD (ifroute item).toNat "").length ≤ 1024 := by
    rwa [List.getD_eq_getElem?_getD, hname, Option.getD_some]
  rw [dumMsgIn_isSome_iff]
  refine ⟨h.type_lt, hroute, ?_⟩
  simp only [dumBuf]
  omega

end MemoryLeak.Notify
