import MemoryLeak.CText
import Mathlib.Data.List.Nodup

/-!
# Texts of keys and values

A text of lines, each a key with a value behind it, and a reader with a table of keys. It cuts the
text at blanks with `strtok`, takes the first key of its table that `strstr` finds anywhere in a
word, and copies what stands behind as many bytes as the key has.
-/
namespace MemoryLeak.KeyedText
open MemoryLeak.CBytes MemoryLeak.CText

/-- Where the value of a key goes. -/
inductive Dest where
  /-- To an array of the structure. -/
  | array (size : ℕ)
  /-- To memory for the word and so many bytes more. -/
  | malloc (more : ℕ)
  /-- It is read as a number. -/
  | number
  deriving DecidableEq, Repr

/-- The keys of a reader, in the order in which it looks for them. -/
abbrev Table := List (Bytes × Dest)

/-- The memory that a reader fills, under the keys. -/
abbrev Info := Bytes → Bytes

/-- One of `" \r\n"`. -/
def blank (c : UInt8) : Bool := c = 32 || c = 13 || c = 10

/-- The first key that is found in a word. -/
def findKey (T : Table) (item : Bytes) : Option (Bytes × Dest) := T.find? fun k => strstr item k.1

/-- The memory of a key after a word with it; `none` where the copy leaves an array. -/
def storeValue (item : Bytes) (k : Bytes × Dest) (old : Bytes) : Option Bytes :=
  let value := item.drop k.1.length
  match k.2 with
  | .array _ => if value.length ≤ old.length then some (memcpy old 0 value) else none
  | .malloc more => some (memcpy (zeros (item.length + more)) 0 value)
  | .number => some old

def storeItem (T : Table) (info : Info) (item : Bytes) : Option Info :=
  match findKey T item with
  | none => some info
  | some k => (storeValue item k (info k.1)).map (Function.update info k.1)

/-- The arrays after `memset`. -/
def cleared (T : Table) : Info := fun key =>
  match T.find? fun k => k.1 = key with
  | some (_, .array size) => zeros size
  | _ => []

def load (T : Table) (file : Bytes) : Option Info :=
  (strtoks blank file).foldlM (storeItem T) (cleared T)

/-- Lines of a key and a value each. -/
def joined (es : List (Bytes × Bytes)) : Bytes := [10].intercalate (es.map fun e => e.1 ++ e.2)

/-- The keys that are looked for before a key. -/
def Table.before (T : Table) (key : Bytes) : List Bytes := (T.map Prod.fst).takeWhile (· ≠ key)

/-- Keys are words, and none is found in another with anything behind it. -/
structure Table.WellFormed (T : Table) : Prop where
  word : ∀ k ∈ T, IsToken blank k.1
  nodup : (T.map Prod.fst).Nodup
  apart : ∀ j ∈ T, ∀ k ∈ T, j.1 ≠ k.1 → Apart j.1 k.1

/-- To be computed. -/
def isWord (t : Bytes) : Bool := !t.isEmpty && t.all fun c => !blank c && c != 0

theorem isToken_of_isWord {t : Bytes} (h : isWord t = true) : IsToken blank t := by
  simp only [isWord, Bool.and_eq_true, List.all_eq_true, Bool.not_eq_true', bne_iff_ne] at h
  refine ⟨?_, h.2⟩
  rintro rfl
  cases h.1

def isApart (base : Bytes) : Bytes → Bool
  | [] => true
  | c :: p => !(c :: p).isPrefixOf base && !base.isPrefixOf (c :: p) && isApart base p

theorem apart_of_isApart {base p : Bytes} (h : isApart base p = true) : Apart base p := by
  induction p with
  | nil => exact fun i hi => absurd hi (Nat.not_lt_zero i)
  | cons c p ih =>
    simp only [isApart, Bool.and_eq_true, Bool.not_eq_true', ← Bool.not_eq_true,
      List.isPrefixOf_iff_prefix] at h
    intro i hi
    cases i with
    | zero => exact h.1
    | succ i => exact ih h.2 i (Nat.lt_of_succ_lt_succ hi)

/-- The conditions on a table, to be computed. -/
def Table.check (T : Table) : Bool :=
  (T.all fun k => isWord k.1) && decide (T.map Prod.fst).Nodup &&
    T.all fun j => T.all fun k => j.1 == k.1 || isApart j.1 k.1

theorem Table.wellFormed_of_check {T : Table} (h : T.check = true) : T.WellFormed := by
  simp only [Table.check, Bool.and_eq_true, List.all_eq_true, Bool.or_eq_true, beq_iff_eq,
    decide_eq_true_eq] at h
  obtain ⟨⟨hword, hnodup⟩, hapart⟩ := h
  exact ⟨fun k hk => isToken_of_isWord (hword k hk), hnodup,
    fun j hj k hk hne => apart_of_isApart ((hapart j hj k hk).resolve_left hne)⟩

/-- Fewer keys of a table, whatever becomes of their values. -/
theorem Table.WellFormed.of_sublist {S T : Table} (hS : S.WellFormed)
    (h : (T.map Prod.fst).Sublist (S.map Prod.fst)) : T.WellFormed := by
  have hkey : ∀ k ∈ T, ∃ j ∈ S, j.1 = k.1 := fun k hk =>
    List.mem_map.mp (h.subset (List.mem_map_of_mem hk))
  refine ⟨fun k hk => ?_, hS.nodup.sublist h, fun j hj k hk hne => ?_⟩
  · obtain ⟨i, hi, hik⟩ := hkey k hk
    exact hik ▸ hS.word i hi
  · obtain ⟨i, hi, hij⟩ := hkey j hj
    obtain ⟨l, hl, hlk⟩ := hkey k hk
    rw [← hij, ← hlk] at hne ⊢
    exact hS.apart i hi l hl hne

/-- The values of a key are kept. -/
def Takes (T : Table) (key : Bytes) : Prop := ∃ dest, (key, dest) ∈ T ∧ dest ≠ .number

/-- A value has room where it goes. -/
def Fits (T : Table) (e : Bytes × Bytes) : Prop :=
  ∀ size, (e.1, Dest.array size) ∈ T → e.2.length < size

/-- A line of one word that changes no memory. -/
def Skipped (T : Table) (e : Bytes × Bytes) : Prop :=
  IsToken blank (e.1 ++ e.2) ∧ ∀ k ∈ findKey T (e.1 ++ e.2), k.2 = .number

/-- The value as a string of C. -/
def Holds (memory value : Bytes) : Prop := text memory = value ∧ value.length < memory.length

/-- A value is one word and holds no key that is looked for before its own. -/
def Safe (T : Table) (e : Bytes × Bytes) : Prop :=
  (∀ c ∈ e.2, blank c = false) ∧ ∀ j ∈ T.before e.1, ¬ j <:+: e.2

/-- The conditions on a line, to be computed. -/
def lineCheck (T : Table) (e : Bytes × Bytes) : Bool :=
  (T.all fun k => k.1 != e.1 ||
      match k.2 with
      | .array size => decide (e.2.length < size)
      | _ => true) &&
    e.2.all (fun c => !blank c) && (T.before e.1).all fun j => !decide (j <:+: e.2)

theorem fits_safe_of_check {T : Table} {e : Bytes × Bytes} (h : lineCheck T e = true) :
    Fits T e ∧ Safe T e := by
  simp only [lineCheck, Bool.and_eq_true, List.all_eq_true, Bool.not_eq_true', Bool.or_eq_true,
    bne_iff_ne, decide_eq_false_iff_not] at h
  obtain ⟨⟨hfits, hblank⟩, hkeys⟩ := h
  refine ⟨fun size hsize => ?_, hblank, hkeys⟩
  rcases hfits _ hsize with hne | hlt
  · exact absurd rfl hne
  · exact of_decide_eq_true hlt

/-! ### The key of a word -/

section Find

variable {T : Table}

theorem mem_before {as bs : Table} {k : Bytes × Dest} (hT : T = as ++ k :: bs)
    (hnodup : (T.map Prod.fst).Nodup) : T.before k.1 = as.map Prod.fst := by
  subst hT
  rw [List.map_append, List.map_cons, List.nodup_append] at hnodup
  have has : ∀ j ∈ as.map Prod.fst, decide (j ≠ k.1) = true := fun j hj =>
    decide_eq_true (hnodup.2.2 j hj k.1 List.mem_cons_self)
  rw [Table.before, List.map_append, List.map_cons, List.takeWhile_append_of_pos has,
    List.takeWhile_cons_of_neg (by simp), List.append_nil]

/-- A key that comes before another has fewer keys before it. -/
theorem before_length_lt {j key : Bytes} (h : j ∈ T.before key) :
    (T.before j).length < (T.before key).length := by
  unfold Table.before at h ⊢
  generalize T.map Prod.fst = keys at h ⊢
  induction keys with
  | nil => exact absurd h List.not_mem_nil
  | cons b bs ih =>
    by_cases hb : b = key
    · rw [List.takeWhile_cons_of_neg (by simpa using hb)] at h
      exact absurd h List.not_mem_nil
    · have hcons : (b :: bs).takeWhile (fun k => decide (k ≠ key)) =
          b :: bs.takeWhile fun k => decide (k ≠ key) :=
        List.takeWhile_cons_of_pos (by simpa using hb)
      rw [hcons] at h ⊢
      by_cases hj : b = j
      · rw [List.takeWhile_cons_of_neg (by simpa using hj)]
        exact Nat.succ_pos _
      · rw [List.takeWhile_cons_of_pos (by simpa using hj), List.length_cons, List.length_cons]
        exact Nat.succ_lt_succ (ih ((List.mem_cons.mp h).resolve_left fun h => hj h.symm))

variable (hT : T.WellFormed)
include hT

theorem Table.WellFormed.eq_of_fst {j k : Bytes × Dest} (hj : j ∈ T) (hk : k ∈ T) (h : j.1 = k.1) :
    j = k := List.inj_on_of_nodup_map hT.nodup hj hk h

/-- A key is found in a line as its own key or in the value. -/
theorem strstr_line {j k : Bytes × Dest} (hj : j ∈ T) (hk : k ∈ T) (v : Bytes) :
    strstr (k.1 ++ v) j.1 = (decide (j.1 = k.1) || strstr v j.1) := by
  by_cases h : j.1 = k.1
  · rw [h, decide_eq_true rfl, Bool.true_or]
    exact decide_eq_true (List.prefix_append _ v).isInfix
  · rw [decide_eq_false h, Bool.false_or]
    exact decide_eq_decide.mpr (infix_append_iff (hT.apart j hj k hk h) v)

/-- A line goes to its own key or to one that comes before. -/
theorem findKey_line {k : Bytes × Dest} (hk : k ∈ T) (v : Bytes) :
    ∃ j ∈ T, findKey T (k.1 ++ v) = some j ∧ (j = k ∨ j.1 ∈ T.before k.1 ∧ j.1 <:+: v) := by
  have hfound : (findKey T (k.1 ++ v)).isSome := by
    rw [findKey, List.find?_isSome]
    exact ⟨k, hk, by rw [strstr_line hT hk hk, decide_eq_true rfl, Bool.true_or]⟩
  obtain ⟨j, hj⟩ := Option.isSome_iff_exists.mp hfound
  have hjT := List.mem_of_find?_eq_some hj
  refine ⟨j, hjT, hj, ?_⟩
  by_cases heq : j.1 = k.1
  · exact Or.inl (hT.eq_of_fst hjT hk heq)
  · right
    obtain ⟨hfind, as, bs, happend, hfirst⟩ := List.find?_eq_some_iff_append.mp hj
    rw [strstr_line hT hjT hk, decide_eq_false heq, Bool.false_or] at hfind
    refine ⟨?_, of_decide_eq_true hfind⟩
    have hkmem : k ∈ bs := by
      rw [happend] at hk
      rcases List.mem_append.mp hk with hk | hk
      · have hnot := hfirst k hk
        have hkT : k ∈ T := happend ▸ List.mem_append_left _ hk
        rw [strstr_line hT hkT hkT, decide_eq_true rfl] at hnot
        cases hnot
      · exact (List.mem_cons.mp hk).resolve_left fun h => heq (congrArg Prod.fst h.symm)
    obtain ⟨cs, ds, rfl⟩ := List.append_of_mem hkmem
    have hsplit : T = (as ++ j :: cs) ++ k :: ds := by
      rw [happend, List.append_assoc, List.cons_append]
    rw [mem_before hsplit hT.nodup]
    simp

/-- It goes to its own exactly if the value holds no key that comes before. -/
theorem findKey_own_iff {k : Bytes × Dest} (hk : k ∈ T) (v : Bytes) :
    findKey T (k.1 ++ v) = some k ↔ ∀ j ∈ T.before k.1, ¬ j <:+: v := by
  constructor
  · intro h j hj hin
    obtain ⟨_, as, bs, happend, hfirst⟩ := List.find?_eq_some_iff_append.mp h
    rw [mem_before happend hT.nodup] at hj
    obtain ⟨i, hi, rfl⟩ := List.mem_map.mp hj
    have hnot := hfirst i hi
    rw [strstr_line hT (happend ▸ List.mem_append_left _ hi) hk, strstr, decide_eq_true hin,
      Bool.or_true] at hnot
    cases hnot
  · intro h
    obtain ⟨j, _, hj, rfl | ⟨hbefore, hin⟩⟩ := findKey_line hT hk v
    · exact hj
    · exact absurd hin (h _ hbefore)

end Find

/-! ### Words read one after another -/

section Fold

variable {T : Table} {info info' : Info} {item : Bytes} {key : Bytes}

theorem storeValue_number {k : Bytes × Dest} (h : k.2 = .number) (old : Bytes) :
    storeValue item k old = some old := by
  unfold storeValue
  rw [h]

theorem storeItem_other (h : storeItem T info item = some info')
    (hkey : ∀ k ∈ findKey T item, k.1 ≠ key) : info' key = info key := by
  unfold storeItem at h
  cases hfind : findKey T item with
  | none =>
    rw [hfind] at h
    exact congrFun (Option.some.inj h).symm key
  | some k =>
    rw [hfind] at h
    obtain ⟨a, _, rfl⟩ := Option.map_eq_some_iff.mp h
    exact Function.update_of_ne (hkey k hfind).symm _ _

theorem foldlM_other {items : List Bytes} (h : items.foldlM (storeItem T) info = some info')
    (hkey : ∀ item ∈ items, ∀ k ∈ findKey T item, k.1 = key → k.2 = .number) :
    info' key = info key := by
  induction items generalizing info with
  | nil => exact congrFun (Option.some.inj h).symm key
  | cons item items ih =>
    obtain ⟨next, hstep, hrest⟩ := Option.bind_eq_some_iff.mp h
    rw [ih hrest fun x hx => hkey x (List.mem_cons_of_mem item hx)]
    by_cases hown : ∃ k ∈ findKey T item, k.1 = key
    · obtain ⟨k, hk, rfl⟩ := hown
      have hnumber := hkey item List.mem_cons_self k hk rfl
      rw [storeItem, Option.mem_def.mp hk] at hstep
      simp only [storeValue_number hnumber, Option.map_some, Option.some.injEq] at hstep
      rw [← hstep, Function.update_self]
    · exact storeItem_other hstep fun k hk h => hown ⟨k, hk, h⟩

/-- No memory holds a blank. -/
theorem foldlM_noBlank {items : List Bytes} (hitems : ∀ item ∈ items, ∀ c ∈ item, blank c = false)
    (h : items.foldlM (storeItem T) info = some info')
    (hinfo : ∀ key, ∀ c ∈ info key, blank c = false) : ∀ key, ∀ c ∈ info' key, blank c = false := by
  induction items generalizing info with
  | nil =>
    rw [← Option.some.inj h]
    exact hinfo
  | cons item items ih =>
    obtain ⟨next, hstep, hrest⟩ := Option.bind_eq_some_iff.mp h
    refine ih (fun x hx => hitems x (List.mem_cons_of_mem item hx)) hrest fun key c hc => ?_
    have hitem := hitems item List.mem_cons_self
    have hcopy : ∀ {dst : Bytes} {n : ℕ}, (∀ c ∈ dst, blank c = false) →
        c ∈ memcpy dst 0 (item.drop n) → blank c = false := by
      intro dst n hdst hmem
      rw [memcpy_start] at hmem
      rcases List.mem_append.mp hmem with hmem | hmem
      · exact hitem c (List.mem_of_mem_drop hmem)
      · exact hdst c (List.mem_of_mem_drop hmem)
    unfold storeItem at hstep
    cases hfind : findKey T item with
    | none =>
      rw [hfind] at hstep
      rw [← Option.some.inj hstep] at hc
      exact hinfo key c hc
    | some k =>
      rw [hfind] at hstep
      obtain ⟨a, ha, rfl⟩ := Option.map_eq_some_iff.mp hstep
      by_cases hkey : key = k.1
      · rw [hkey, Function.update_self] at hc
        unfold storeValue at ha
        cases hdest : k.2 with
        | array size =>
          simp only [hdest, Option.ite_none_right_eq_some, Option.some.injEq] at ha
          rw [← ha.2] at hc
          exact hcopy (hinfo k.1) hc
        | malloc more =>
          simp only [hdest, Option.some.injEq] at ha
          rw [← ha] at hc
          refine hcopy (fun c hc => ?_) hc
          rw [List.eq_of_mem_replicate hc]
          rfl
        | number =>
          simp only [hdest, Option.some.injEq] at ha
          rw [← ha] at hc
          exact hinfo k.1 c hc
      · rw [Function.update_of_ne hkey] at hc
        exact hinfo key c hc

theorem cleared_array {size : ℕ} (hT : T.WellFormed) (h : (key, Dest.array size) ∈ T) :
    cleared T key = zeros size := by
  have hfind : T.find? (fun k => k.1 = key) = some (key, Dest.array size) := by
    cases hf : T.find? fun k => k.1 = key with
    | none => exact absurd (List.find?_eq_none.mp hf _ h) (by simp)
    | some k =>
      have hk : k.1 = key := by simpa using List.find?_some hf
      rw [hT.eq_of_fst (List.mem_of_find?_eq_some hf) h hk]
  rw [cleared, hfind]

/-- An array keeps its size. -/
theorem foldlM_array {items : List Bytes} {size : ℕ} (hT : T.WellFormed)
    (hkey : (key, Dest.array size) ∈ T) (h : items.foldlM (storeItem T) info = some info')
    (hinfo : (info key).length = size) : (info' key).length = size := by
  induction items generalizing info with
  | nil =>
    rw [← Option.some.inj h]
    exact hinfo
  | cons item items ih =>
    obtain ⟨next, hstep, hrest⟩ := Option.bind_eq_some_iff.mp h
    refine ih hrest ?_
    by_cases hown : ∃ k ∈ findKey T item, k.1 = key
    · obtain ⟨k, hk, hke⟩ := hown
      have hfound := Option.mem_def.mp hk
      obtain rfl : k = (key, Dest.array size) :=
        hT.eq_of_fst (List.mem_of_find?_eq_some hfound) hkey hke
      rw [storeItem, hfound] at hstep
      obtain ⟨a, ha, rfl⟩ := Option.map_eq_some_iff.mp hstep
      simp only [storeValue, Option.ite_none_right_eq_some, Option.some.injEq] at ha
      rw [Function.update_self, ← ha.2, memcpy_length (by omega), hinfo]
    · rw [storeItem_other hstep fun k hk hke => hown ⟨k, hk, hke⟩, hinfo]

/-- A value with room is copied and can be read. -/
theorem storeValue_fits {e : Bytes × Bytes} {dest : Dest} (hT : T.WellFormed)
    (hmem : (e.1, dest) ∈ T) (htakes : dest ≠ .number) (hfit : Fits T e)
    (hnul : (0 : UInt8) ∉ e.2) :
    ∃ a, storeValue (e.1 ++ e.2) (e.1, dest) (cleared T e.1) = some a ∧ Holds a e.2 := by
  have hcopy : ∀ n, e.2.length < n → Holds (memcpy (zeros n) 0 e.2) e.2 := by
    intro n hn
    obtain ⟨m, hm⟩ : ∃ m, n - e.2.length = m + 1 := ⟨n - e.2.length - 1, by omega⟩
    rw [memcpy_zeros, hm]
    exact ⟨text_append_nul hnul (zeros m), by rw [List.length_append, zeros_length]; omega⟩
  cases dest with
  | array size =>
    have hlen := hfit size hmem
    refine ⟨memcpy (zeros size) 0 e.2, ?_, hcopy size hlen⟩
    simp only [storeValue, List.drop_left, cleared_array hT hmem, zeros_length]
    rw [if_pos hlen.le]
  | malloc more =>
    have hword : 0 < e.1.length := List.length_pos_of_ne_nil (hT.word _ hmem).1
    refine ⟨memcpy (zeros ((e.1 ++ e.2).length + more)) 0 e.2, ?_, hcopy _ ?_⟩
    · simp only [storeValue, List.drop_left]
    · rw [List.length_append]
      omega
  | number => exact absurd rfl htakes

/-- Lines that each go to their own key, all different. -/
theorem foldlM_lines (hT : T.WellFormed) {es : List (Bytes × Bytes)}
    (hnul : ∀ e ∈ es, (0 : UInt8) ∉ e.2) (hkeys : (es.map Prod.fst).Nodup)
    (hes : ∀ e ∈ es, Takes T e.1 ∧ Fits T e ∧ Safe T e ∨ ¬ Takes T e.1 ∧ Skipped T e)
    (hinfo : ∀ e ∈ es, info e.1 = cleared T e.1) :
    ∃ info', (es.map fun e => e.1 ++ e.2).foldlM (storeItem T) info = some info' ∧
      ∀ e ∈ es, Takes T e.1 → Holds (info' e.1) e.2 := by
  induction es generalizing info with
  | nil => exact ⟨info, rfl, by simp⟩
  | cons e es ih =>
    rw [List.map_cons, List.nodup_cons] at hkeys
    have hstep : ∃ next, storeItem T info (e.1 ++ e.2) = some next ∧
        (Takes T e.1 → Holds (next e.1) e.2) ∧ ∀ key, key ≠ e.1 → next key = info key := by
      rcases hes e List.mem_cons_self with ⟨⟨dest, hmem, hdest⟩, hfit, hsafe⟩ | ⟨htakes, -, hskip⟩
      · obtain ⟨a, ha, hread⟩ :=
          storeValue_fits hT hmem hdest hfit (hnul e List.mem_cons_self)
        have hfind := (findKey_own_iff hT hmem e.2).mpr hsafe.2
        refine ⟨Function.update info e.1 a, ?_, fun _ => ?_, fun key hkey => ?_⟩
        · rw [storeItem, hfind]
          simp only [hinfo e List.mem_cons_self, ha, Option.map_some]
        · rw [Function.update_self]
          exact hread
        · exact Function.update_of_ne hkey _ _
      · refine ⟨info, ?_, fun h => absurd h htakes, fun _ _ => rfl⟩
        unfold storeItem
        cases hfind : findKey T (e.1 ++ e.2) with
        | none => rfl
        | some k =>
          simp only [storeValue_number (hskip k hfind), Option.map_some, Function.update_eq_self]
    obtain ⟨next, hnext, hread, hframe⟩ := hstep
    have hother : ∀ e' ∈ es, e'.1 ≠ e.1 := fun e' he' h =>
      hkeys.1 (h ▸ List.mem_map_of_mem he')
    obtain ⟨info', hfold, hrest⟩ := ih (fun x hx => hnul x (List.mem_cons_of_mem e hx)) hkeys.2
      (fun x hx => hes x (List.mem_cons_of_mem e hx))
      (fun x hx => (hframe _ (hother x hx)).trans (hinfo x (List.mem_cons_of_mem e hx)))
    refine ⟨info', by rw [List.map_cons, List.foldlM_cons, hnext]; exact hfold, ?_⟩
    intro x hx htakes
    rcases List.mem_cons.mp hx with rfl | hx
    · rw [foldlM_other hfold]
      · exact hread htakes
      · intro item hitem k hk hkx
        obtain ⟨e', he', rfl⟩ := List.mem_map.mp hitem
        rcases hes e' (List.mem_cons_of_mem x he') with ⟨⟨dest, hmem, -⟩, -, hsafe⟩ | ⟨-, -, hskip⟩
        · rw [Option.mem_def, (findKey_own_iff hT hmem e'.2).mpr hsafe.2, Option.some.injEq] at hk
          exact absurd (by rw [← hkx, ← hk]) (hother e' he')
        · exact hskip k hk
    · exact hrest x hx htakes

end Fold

/-! ### The text of some lines -/

section Lines

variable {T : Table} {es : List (Bytes × Bytes)}

theorem line_word (hT : T.WellFormed) {e : Bytes × Bytes} (htakes : Takes T e.1)
    (hblank : ∀ c ∈ e.2, blank c = false) (hnul : (0 : UInt8) ∉ e.2) :
    IsToken blank (e.1 ++ e.2) := by
  obtain ⟨dest, hmem, -⟩ := htakes
  have hkey := hT.word _ hmem
  refine ⟨fun h => hkey.1 (List.append_eq_nil_iff.mp h).1, fun c hc => ?_⟩
  rcases List.mem_append.mp hc with hc | hc
  · exact hkey.2 c hc
  · exact ⟨hblank c hc, fun h => hnul (h ▸ hc)⟩

theorem strtoks_words (hwords : ∀ e ∈ es, IsToken blank (e.1 ++ e.2)) :
    strtoks blank (joined es) = es.map fun e => e.1 ++ e.2 :=
  strtoks_intercalate (fun t ht => by
    obtain ⟨e, he, rfl⟩ := List.mem_map.mp ht
    exact hwords e he) rfl (by decide)

theorem text_cleared (T : Table) (key : Bytes) : text (cleared T key) = [] := by
  unfold cleared
  split
  · rw [text, zeros]
    cases ‹ℕ› <;> rfl
  · rfl

theorem before_length_le (T : Table) (key : Bytes) : (T.before key).length ≤ T.length := by
  rw [← List.length_map Prod.fst]
  exact (List.takeWhile_sublist _).length_le

/-- Where every value is read, each line went to its own key: nothing else is written to the last
key of the table, so its value came from its line, and so on to the first key. -/
theorem own_of_read (hT : T.WellFormed) (hkeys : (es.map Prod.fst).Nodup)
    (hes : ∀ e ∈ es, Takes T e.1 ∨ Skipped T e) {info : Info}
    (hload : (es.map fun e => e.1 ++ e.2).foldlM (storeItem T) (cleared T) = some info)
    (hread : ∀ e ∈ es, Takes T e.1 → Holds (info e.1) e.2) :
    ∀ n, ∀ e ∈ es, Takes T e.1 → T.length - (T.before e.1).length = n →
      ∀ j ∈ T.before e.1, ¬ j <:+: e.2 := by
  intro n
  induction n using Nat.strong_induction_on with
  | _ n ih =>
    intro e he htakes hn j hj hin
    have hunread : info e.1 = cleared T e.1 := by
      refine foldlM_other hload fun item hitem k hk hke => ?_
      obtain ⟨e', he', rfl⟩ := List.mem_map.mp hitem
      rcases hes e' he' with htakes' | hskip
      · obtain ⟨dest, hmem, hdest⟩ := htakes'
        obtain ⟨i, -, hfind, hroute⟩ := findKey_line hT hmem e'.2
        obtain rfl : i = k := Option.some.inj (hfind.symm.trans hk)
        exfalso
        rcases hroute with rfl | ⟨hbefore, hvalue⟩
        · have hsame : e' = e := List.inj_on_of_nodup_map hkeys he' he hke
          subst hsame
          exact (findKey_own_iff hT hmem e'.2).mp hfind j hj hin
        · rw [hke] at hbefore hvalue
          have hlt := before_length_lt hbefore
          have hle := before_length_le T e'.1
          exact ih _ (by dsimp only at hlt; omega) e' he' ⟨dest, hmem, hdest⟩ rfl e.1 hbefore hvalue
      · exact hskip.2 k hk
    have hnil : e.2 = [] := by
      rw [← (hread e he htakes).1, hunread]
      exact text_cleared T e.1
    rw [hnil, List.infix_nil] at hin
    obtain ⟨i, hi, rfl⟩ := List.mem_map.mp ((List.takeWhile_sublist _).subset hj)
    exact (hT.word i hi).1 hin

/-- Every value comes back if and only if each has room and is safe. -/
theorem load_joined_iff (hT : T.WellFormed) (hnul : ∀ e ∈ es, (0 : UInt8) ∉ e.2)
    (hkeys : (es.map Prod.fst).Nodup) (hes : ∀ e ∈ es, Takes T e.1 ∨ Skipped T e) :
    (∃ info, load T (joined es) = some info ∧ ∀ e ∈ es, Takes T e.1 → Holds (info e.1) e.2) ↔
      ∀ e ∈ es, Takes T e.1 → Fits T e ∧ Safe T e := by
  constructor
  · rintro ⟨info, hload, hread⟩
    have hwordsBlank : ∀ item ∈ strtoks blank (joined es), ∀ c ∈ item, blank c = false :=
      fun item hitem c hc => ((strtoks_isToken hitem).2 c hc).1
    have hclearedBlank : ∀ key, ∀ c ∈ cleared T key, blank c = false := by
      intro key c hc
      unfold cleared at hc
      split at hc
      · rw [List.eq_of_mem_replicate hc]
        rfl
      · cases hc
    have hmemory := foldlM_noBlank hwordsBlank hload hclearedBlank
    have hblank : ∀ e ∈ es, Takes T e.1 → ∀ c ∈ e.2, blank c = false := by
      intro e he htakes c hc
      rw [← (hread e he htakes).1] at hc
      exact hmemory e.1 c ((List.takeWhile_sublist _).subset hc)
    have hwords : ∀ e ∈ es, IsToken blank (e.1 ++ e.2) := by
      intro e he
      rcases hes e he with htakes | hskip
      · exact line_word hT htakes (hblank e he htakes) (hnul e he)
      · exact hskip.1
    intro e he htakes
    refine ⟨fun size hsize => ?_, hblank e he htakes, ?_⟩
    · rw [← foldlM_array hT hsize hload (by rw [cleared_array hT hsize, zeros_length])]
      exact (hread e he htakes).2
    · rw [load, strtoks_words hwords] at hload
      exact own_of_read hT hkeys hes hload hread _ e he htakes rfl
  · intro hsafe
    have hwords : ∀ e ∈ es, IsToken blank (e.1 ++ e.2) := by
      intro e he
      rcases hes e he with htakes | hskip
      · exact line_word hT htakes (hsafe e he htakes).2.1 (hnul e he)
      · exact hskip.1
    rw [load, strtoks_words hwords]
    refine foldlM_lines hT hnul hkeys (fun e he => ?_) fun _ _ => rfl
    by_cases htakes : Takes T e.1
    · exact Or.inl ⟨htakes, hsafe e he htakes⟩
    · exact Or.inr ⟨htakes, (hes e he).resolve_left htakes⟩

/-- A newline behind the last line changes nothing. -/
theorem load_newline {file : Bytes} (hnul : (0 : UInt8) ∉ file) :
    load T (file ++ [10]) = load T file := by
  have hnul' : (0 : UInt8) ∉ file ++ [10] := by simp [hnul]
  rw [load, load, strtoks, strtoks, text_of_noNul hnul, text_of_noNul hnul', tokensFrom_append rfl]
  rw [show tokensFrom blank [] [] = [] from rfl, List.append_nil]

end Lines

end MemoryLeak.KeyedText
