import MemoryLeak.Cluster.QuickSort
import MemoryLeak.SlotArray

/-!
# Listings of a directory

`lcs_comm_subdir_ext`, `lcs_comm_subdir` and `lcs_comm_list_files` put the names of the
entries that they look for into an array of 62 slots, however many there are, and then resize
it to one slot more than the number of names, for the null pointer at which their callers stop.
`lcs_comm_subdir` and the hour program sort the names.
-/
namespace MemoryLeak.Cluster
open MemoryLeak.CBytes MemoryLeak.CText MemoryLeak.SlotArray

/-! ### The directory -/

/-- What `st_mode` says of a file. -/
inductive FileType where
  | directory | regular | other
  deriving DecidableEq

/-- An entry that `readdir` returns, and what `stat` finds of it, if it does not fail. -/
structure Dirent where
  name : CStr 256
  mode : Option FileType

/-- The name is `.` or `..`. -/
def isDot (dent : Dirent) : Prop :=
  strcmp dent.name.bytes [46] = 0 ∨ strcmp dent.name.bytes [46, 46] = 0

instance (dent : Dirent) : Decidable (isDot dent) := inferInstanceAs (Decidable (_ ∨ _))

/-- Which allocations of a call succeed: of the array, of the copy of each name, and at the
end the `realloc`. -/
structure Memory where
  array : Bool
  name : ℕ → Bool
  resize : Bool

/-- What a call leaves in `*result`, `*count` and `*err`. -/
structure Listing where
  result : Option (List (Slot Bytes))
  count : ℕ
  err : ℤ

/-! ### The calls -/

section Calls

variable (m : Memory) (path : Bytes)

/-- `(*result)[dir_count] = calloc(..); strcat(..); dir_count++`. -/
def storeName (s : Listing) (name : Bytes) : Option Listing := do
  let slots ← s.result
  let slots ← store slots s.count (.ptr name)
  if m.name s.count then some ⟨some slots, s.count + 1, s.err⟩ else none

/-- A turn of the loop over the entries; the path of an entry is put into `char tmp[1024]`. -/
def listEntry (want : FileType) (s : Listing) (dent : Dirent) : Option Listing :=
  if isDot dent then some s
  else if 1024 ≤ strlen path + 1 + dent.name.bytes.length then none
  else match dent.mode with
    | none => some { s with err := 1 }
    | some mode => if mode = want then storeName m s dent.name.bytes else some s

/-- The array of 62 slots, cleared. -/
def callocSlots : Option (List (Slot Bytes)) :=
  if m.array then some (List.replicate 62 .null) else none

/-- `realloc(*result, n * sizeof(void **))`; that of a null pointer allocates. -/
def reallocSlots (slots : Option (List (Slot Bytes))) (n : ℕ) : Option (List (Slot Bytes)) :=
  if m.resize then some (resized (slots.getD []) n) else none

/-- What the three functions have in common: the entries of a type are listed, and the array
has one slot more than there are names. -/
def listDir (want : FileType) (entries : List Dirent) (err : ℤ) : Option Listing := do
  let s ← entries.foldlM (listEntry m path want) ⟨callocSlots m, 0, err⟩
  some { s with result := reallocSlots m s.result (s.count + 1) }

variable (given : Bool) (dir : Option (List Dirent)) (old : Listing)

/-- `lcs_comm_subdir_ext`; `result` may be null, and `opendir` may fail. -/
def lcsCommSubdirExt : Option Listing :=
  if given then
    match dir with
    | none => some { old with err := 1 }
    | some entries => listDir m path .directory entries old.err
  else some { old with err := 1 }

/-- `lcs_comm_list_files`. -/
def lcsCommListFiles : Option Listing :=
  if given then
    match dir with
    | none => some { old with err := 1 }
    | some entries => do
      let s ← listDir m path .regular entries old.err
      some { s with count := old.count }
  else some { old with err := 1 }

/-- The slots of an array as cells; only a slot that points to a name has a value. -/
def nameCells (slots : List (Slot Bytes)) : Cells Bytes := fun k =>
  if 0 ≤ k then
    match slots[k.toNat]? with
    | some (.ptr name) => some name
    | _ => none
  else none

/-- An array after a sort of its cells, which changes slots with names only. -/
def putCells (slots : List (Slot Bytes)) (cells : Cells Bytes) : List (Slot Bytes) :=
  slots.mapIdx fun i x =>
    match cells i with
    | some name => .ptr name
    | none => x

/-- A call of `lcs_quick_sort` on an array of names. -/
structure SortCall where
  arr : Option (List (Slot Bytes))
  low : ℤ
  hi : ℤ

def SortCall.run (k : ℕ) (c : SortCall) : Option (List (Slot Bytes)) := do
  let arr ← c.arr
  let cells ← lcsQuickSort id k (nameCells arr) c.low c.hi
  some (putCells arr cells)

/-- The call in `lcs_comm_subdir`, where `dir_count` has been incremented. -/
def subdirSortCall (s : Listing) : SortCall :=
  let dirCount := s.count + 1
  ⟨s.result, 0, (dirCount : ℤ) - 2⟩

/-- `lcs_comm_subdir`; `k` bounds the depth of the recursion of the sort. -/
def lcsCommSubdir (k : ℕ) : Option Listing :=
  if given then
    match dir with
    | none => some { old with err := 1 }
    | some entries => do
      let s ← listDir m path .directory entries old.err
      let arr ← (subdirSortCall s).run k
      some ⟨some arr, old.count, s.err⟩
  else some { old with err := 1 }

/-- The call in `main` of the hour program, which is made if `arrdir` is not null. -/
def hourSortCall : Option (Option SortCall) := do
  let s ← lcsCommSubdirExt m path true dir ⟨none, 0, 0⟩
  match s.result with
  | none => some none
  | some arrdir => some (some ⟨some arrdir, 0, s.count - 1⟩)

end Calls

/-! ### What is listed -/

/-- The name of an entry of a type. -/
def entryNames (want : FileType) (dent : Dirent) : List Bytes :=
  if ¬ isDot dent ∧ dent.mode = some want then [dent.name.bytes] else []

/-- The names of a type in a directory. -/
def names (want : FileType) (entries : List Dirent) : List Bytes :=
  entries.flatMap (entryNames want)

theorem names_cons (want : FileType) (dent : Dirent) (entries : List Dirent) :
    names want (dent :: entries) = entryNames want dent ++ names want entries :=
  List.flatMap_cons

/-- The path of an entry fits `tmp`, with its NUL. -/
def EntryFits (path : Bytes) (dent : Dirent) : Prop :=
  isDot dent ∨ strlen path + 1 + dent.name.bytes.length < 1024

/-- The `i`-th name can be stored. -/
def Stores (m : Memory) (i : ℕ) : Prop := m.array = true ∧ i < 62 ∧ m.name i = true

/-- `*err` behind an entry. -/
def entryErr (err : ℤ) (dent : Dirent) : ℤ := if ¬ isDot dent ∧ dent.mode = none then 1 else err

/-- The variables of the loop when `done` has been listed. -/
def listed (m : Memory) (done : List Bytes) (err : ℤ) : Listing :=
  ⟨if m.array then some (filled 62 done) else none, done.length, err⟩

section Loop

variable {m : Memory} {path : Bytes} {want : FileType}

theorem storeName_eq_some {done : List Bytes} (hdone : done.length ≤ 62) {err : ℤ} {name : Bytes}
    {s : Listing} : storeName m (listed m done err) name = some s ↔
      Stores m done.length ∧ s = listed m (done ++ [name]) err := by
  unfold storeName listed Stores
  cases m.array with
  | false => simp
  | true =>
    by_cases hlt : done.length < 62
    · rw [if_pos rfl, if_pos rfl]
      simp only [bind, Option.bind_some, store_filled hlt]
      cases m.name done.length with
      | false => simp
      | true => simp [hlt, eq_comm]
    · rw [if_pos rfl]
      simp only [bind, Option.bind_some, store_full hdone (not_lt.mp hlt)]
      simp [hlt]

/-- An entry that is not listed. -/
theorem entryNames_eq_nil {dent : Dirent} (h : isDot dent ∨ dent.mode ≠ some want) :
    entryNames want dent = [] := by
  rw [entryNames, if_neg]
  exact fun hboth => h.elim hboth.1 fun hne => hne hboth.2

theorem listEntry_eq_some {done : List Bytes} (hdone : done.length ≤ 62) {err : ℤ}
    {dent : Dirent} {s : Listing} : listEntry m path want (listed m done err) dent = some s ↔
      EntryFits path dent ∧
      (∀ i < (entryNames want dent).length, Stores m (done.length + i)) ∧
      s = listed m (done ++ entryNames want dent) (entryErr err dent) := by
  unfold listEntry
  by_cases hdot : isDot dent
  · rw [if_pos hdot, entryNames_eq_nil (Or.inl hdot), entryErr, if_neg (fun h => h.1 hdot)]
    simp [EntryFits, hdot, eq_comm]
  · rw [if_neg hdot]
    by_cases hlong : 1024 ≤ strlen path + 1 + dent.name.bytes.length
    · rw [if_pos hlong]
      have hfits : ¬ EntryFits path dent := not_or.mpr ⟨hdot, not_lt.mpr hlong⟩
      simp [hfits]
    · have hfits : EntryFits path dent := Or.inr (not_le.mp hlong)
      rw [if_neg hlong]
      cases hmode : dent.mode with
      | none =>
        rw [entryNames_eq_nil (Or.inr (by simp [hmode])), entryErr, if_pos ⟨hdot, hmode⟩]
        have hset : { listed m done err with err := 1 } = listed m done 1 := rfl
        simp only [hset]
        simp [hfits, eq_comm]
      | some mode =>
        have herr : entryErr err dent = err := by simp [entryErr, hmode]
        by_cases hwant : mode = want
        · have hone : entryNames want dent = [dent.name.bytes] := by
            rw [entryNames, if_pos ⟨hdot, by rw [hmode, hwant]⟩]
          simp only [if_pos hwant, storeName_eq_some hdone, hone, herr, hfits, true_and,
            List.length_singleton, Nat.lt_one_iff, forall_eq, Nat.add_zero]
        · rw [entryNames_eq_nil (Or.inr (by simp [hmode, hwant])), herr]
          simp [hfits, hwant, eq_comm]

theorem stores_add (k a b : ℕ) : (∀ i < a + b, Stores m (k + i)) ↔
    (∀ i < a, Stores m (k + i)) ∧ ∀ i < b, Stores m (k + a + i) := by
  constructor
  · intro h
    refine ⟨fun i hi => h i (by omega), fun i hi => ?_⟩
    rw [Nat.add_assoc]
    exact h (a + i) (by omega)
  · rintro ⟨hleft, hright⟩ i hi
    by_cases hlt : i < a
    · exact hleft i hlt
    · have hi' := hright (i - a) (by omega)
      rwa [show k + a + (i - a) = k + i by omega] at hi'

/-- The loop over the entries has an outcome if and only if every path fits and every name can
be stored; it has then listed the names of the type. -/
theorem foldlM_listEntry_eq_some {done : List Bytes} (hdone : done.length ≤ 62) {err : ℤ}
    {entries : List Dirent} {s : Listing} :
    entries.foldlM (listEntry m path want) (listed m done err) = some s ↔
      (∀ dent ∈ entries, EntryFits path dent) ∧
      (∀ i < (names want entries).length, Stores m (done.length + i)) ∧
      s = listed m (done ++ names want entries) (entries.foldl entryErr err) := by
  induction entries generalizing done err with
  | nil => simp [names, eq_comm]
  | cons dent entries ih =>
    rw [List.foldlM_cons, Option.bind_eq_bind, Option.bind_eq_some_iff, names_cons,
      List.length_append, stores_add, List.forall_mem_cons, ← List.append_assoc, List.foldl_cons]
    have hstored : (∀ i < (entryNames want dent).length, Stores m (done.length + i)) →
        (done ++ entryNames want dent).length ≤ 62 := by
      intro h
      rw [List.length_append]
      cases hlen : (entryNames want dent).length with
      | zero => exact hdone
      | succ n =>
        have hlast := (h n (by omega)).2.1
        omega
    constructor
    · rintro ⟨t, ht, hs⟩
      obtain ⟨hfits, hstore, rfl⟩ := (listEntry_eq_some hdone).mp ht
      obtain ⟨hrest, hstores, hs⟩ := (ih (hstored hstore)).mp hs
      rw [List.length_append] at hstores
      exact ⟨⟨hfits, hrest⟩, ⟨hstore, hstores⟩, hs⟩
    · rintro ⟨⟨hfits, hrest⟩, ⟨hstore, hstores⟩, hs⟩
      refine ⟨_, (listEntry_eq_some hdone).mpr ⟨hfits, hstore, rfl⟩, ?_⟩
      refine (ih (hstored hstore)).mpr ⟨hrest, ?_, hs⟩
      rw [List.length_append]
      exact hstores

end Loop

/-! ### The array that is returned -/

/-- Every path fits and every name can be stored. -/
def Listable (m : Memory) (path : Bytes) (want : FileType) (entries : List Dirent) : Prop :=
  (∀ dent ∈ entries, EntryFits path dent) ∧ ∀ i < (names want entries).length, Stores m i

/-- The names have room in the array of 62 slots. -/
theorem Listable.length_le {m : Memory} {path : Bytes} {want : FileType} {entries : List Dirent}
    (h : Listable m path want entries) : (names want entries).length ≤ 62 := by
  by_contra hlen
  exact lt_irrefl 62 (h.2 62 (by omega)).2.1

/-- The slot behind the names: the array of 62 slots had it, or it was never written. -/
def lastSlot (m : Memory) (n : ℕ) : Slot Bytes :=
  if m.array = true ∧ n < 62 then .null else .junk

/-- The array for some names. -/
def nameArray (m : Memory) (l : List Bytes) : Option (List (Slot Bytes)) :=
  if m.resize then some (l.map Slot.ptr ++ [lastSlot m l.length]) else none

theorem lastSlot_ne_ptr (m : Memory) (n : ℕ) (name : Bytes) : lastSlot m n ≠ .ptr name := by
  unfold lastSlot
  split_ifs <;> simp

theorem lastSlot_eq_null_iff (m : Memory) (n : ℕ) :
    lastSlot m n = .null ↔ m.array = true ∧ n < 62 := by
  unfold lastSlot
  split_ifs with h <;> simp [h]

section Array

variable {m : Memory} {path : Bytes} {want : FileType} {entries : List Dirent}

theorem reallocSlots_listed {l : List Bytes} (h : ∀ i < l.length, Stores m i) (err : ℤ) :
    reallocSlots m (listed m l err).result (l.length + 1) = nameArray m l := by
  unfold reallocSlots nameArray listed lastSlot
  cases harray : m.array with
  | false =>
    have hnil : l = [] := by
      apply List.eq_nil_iff_length_eq_zero.mpr
      by_contra hne
      have hfirst := (h 0 (Nat.pos_of_ne_zero hne)).1
      rw [harray] at hfirst
      cases hfirst
    subst hnil
    rfl
  | true =>
    by_cases hlt : l.length < 62
    · simp [resized_filled_of_lt hlt, hlt]
    · have hlast : l.length ≤ 62 := by
        have hstored := h (l.length - 1) (by omega)
        have := hstored.2.1
        omega
      have hfull : l.length = 62 := by omega
      have hresized := resized_filled_full l
      rw [hfull] at hresized
      simp [hfull, hresized]

theorem listDir_eq_some {err : ℤ} {s : Listing} :
    listDir m path want entries err = some s ↔ Listable m path want entries ∧
      s = ⟨nameArray m (names want entries), (names want entries).length,
        entries.foldl entryErr err⟩ := by
  have hinit : (⟨callocSlots m, 0, err⟩ : Listing) = listed m [] err := rfl
  unfold listDir
  rw [hinit, Option.bind_eq_bind, Option.bind_eq_some_iff]
  have hloop (t : Listing) := @foldlM_listEntry_eq_some m path want [] (Nat.zero_le 62) err
    entries t
  simp only [List.length_nil, Nat.zero_add, List.nil_append] at hloop
  simp only [hloop]
  constructor
  · rintro ⟨t, ⟨hfits, hstores, rfl⟩, hs⟩
    refine ⟨⟨hfits, hstores⟩, ?_⟩
    rw [← Option.some.inj hs, ← reallocSlots_listed hstores (entries.foldl entryErr err)]
    rfl
  · rintro ⟨⟨hfits, hstores⟩, rfl⟩
    refine ⟨_, ⟨hfits, hstores, rfl⟩, ?_⟩
    rw [← reallocSlots_listed hstores (entries.foldl entryErr err)]
    rfl

end Array

/-! ### The sort of the names -/

section Sorts

variable {l : List Bytes} {last : Slot Bytes}

theorem nameCells_names (hlast : ∀ name, last ≠ .ptr name) :
    nameCells (l.map Slot.ptr ++ [last]) = ofList l := by
  ext k : 1
  unfold nameCells ofList
  by_cases hk : 0 ≤ k
  · rw [if_pos hk, if_pos hk]
    by_cases hlt : k.toNat < l.length
    · rw [List.getElem?_append_left (by rw [List.length_map]; exact hlt), List.getElem?_map,
        List.getElem?_eq_getElem hlt]
      rfl
    · have hend : l[k.toNat]? = none := List.getElem?_eq_none (by omega)
      rw [List.getElem?_append_right (by rw [List.length_map]; omega), hend]
      cases hcell : [last][k.toNat - (l.map Slot.ptr).length]? with
      | none => rfl
      | some x =>
        have hx : x = last := List.mem_singleton.mp (List.mem_of_getElem? hcell)
        cases x with
        | null => rfl
        | ptr name => exact absurd hx.symm (hlast name)
        | junk => rfl
  · rw [if_neg hk, if_neg hk]

theorem putCells_names {l' : List Bytes} (hlen : l'.length = l.length) :
    putCells (l.map Slot.ptr ++ [last]) (ofList l') = l'.map Slot.ptr ++ [last] := by
  apply List.ext_getElem?
  intro i
  unfold putCells
  rw [List.getElem?_mapIdx, ofList_natCast]
  by_cases hlt : i < l.length
  · have hlt' : i < l'.length := by omega
    rw [List.getElem?_append_left (by rw [List.length_map]; exact hlt),
      List.getElem?_append_left (by rw [List.length_map]; exact hlt'), List.getElem?_map,
      List.getElem?_map, List.getElem?_eq_getElem hlt, List.getElem?_eq_getElem hlt']
    rfl
  · rw [List.getElem?_append_right (by rw [List.length_map]; omega),
      List.getElem?_append_right (by rw [List.length_map]; omega), List.length_map,
      List.length_map, hlen, List.getElem?_eq_none (by omega)]
    exact Option.map_id'

/-- The sort of at least one name. -/
theorem run_names (hlast : ∀ name, last ≠ .ptr name) (hne : l ≠ []) (hlen : l.length ≤ 62) :
    ∃ l' : List Bytes, l'.Perm l ∧ l'.Pairwise (fun a b => strcmp a b ≤ 0) ∧
      ∀ k, l.length ≤ k →
        SortCall.run k ⟨some (l.map Slot.ptr ++ [last]), 0, l.length - 1⟩ =
          some (l'.map Slot.ptr ++ [last]) := by
  obtain ⟨l', hrun, hperm, hsorted⟩ := lcsQuickSortExt_list strcmp_isComparison hne (by omega)
  refine ⟨l', hperm, hsorted, fun k hk => ?_⟩
  have hsort : lcsQuickSort id k (ofList l) 0 (l.length - 1) = some (ofList l') := hrun k hk
  simp only [SortCall.run, bind, Option.bind_some, nameCells_names hlast, hsort,
    putCells_names hperm.length_eq]

/-- A first cell that holds no name. -/
theorem lcsQuickSort_none {cells : Cells Bytes} {low : ℤ} (h : cells low = none) (k : ℕ) (hi : ℤ) :
    lcsQuickSort id k cells low hi = none := by
  cases k with
  | zero => rfl
  | succ k =>
    simp only [lcsQuickSort, sortWith, lcsPartition, lcsPartitionExt, h, bind, Option.bind_none]

theorem run_empty (hlast : ∀ name, last ≠ .ptr name) (k : ℕ) (hi : ℤ) :
    SortCall.run k ⟨some [last], 0, hi⟩ = none := by
  have hcells : nameCells [last] = ofList [] := @nameCells_names [] last hlast
  have hfirst : nameCells [last] 0 = none := by rw [hcells]; rfl
  simp only [SortCall.run, bind, Option.bind_some, lcsQuickSort_none hfirst, Option.bind_none]

end Sorts

/-! ### A listing is complete -/

/-- The array holds the names and then a null pointer; the walk up to it visits each of them
once. -/
structure Complete (result : Option (List (Slot Bytes))) (l : List Bytes) : Prop where
  holds : ∃ l' : List Bytes, l'.Perm l ∧ result = some (l'.map Slot.ptr ++ [Slot.null])
  walked : ∃ l' : List Bytes, l'.Perm l ∧ result.bind walk = some l'

theorem complete_iff {l l' : List Bytes} (hperm : l'.Perm l) (last : Slot Bytes) :
    Complete (some (l'.map Slot.ptr ++ [last])) l ↔ last = .null := by
  constructor
  · intro h
    obtain ⟨l₁, _, heq⟩ := h.holds
    exact append_null_inj (Option.some.inj heq)
  · rintro rfl
    exact ⟨⟨l', hperm, rfl⟩, l', hperm, walk_terminated l' []⟩

/-- Paths fit, no allocation fails, and a slot is left for the null pointer. -/
def ListGood (m : Memory) (path : Bytes) (want : FileType) (entries : List Dirent) : Prop :=
  (∀ dent ∈ entries, EntryFits path dent) ∧ m.array = true ∧ m.resize = true ∧
    (names want entries).length < 62 ∧ ∀ i < (names want entries).length, m.name i = true

section Complete

variable {m : Memory} {path : Bytes} {want : FileType} {entries : List Dirent}

theorem listGood_iff : ListGood m path want entries ↔ Listable m path want entries ∧
    m.resize = true ∧ lastSlot m (names want entries).length = .null := by
  rw [lastSlot_eq_null_iff]
  constructor
  · rintro ⟨hfits, harray, hresize, hlt, hname⟩
    exact ⟨⟨hfits, fun i hi => ⟨harray, by omega, hname i hi⟩⟩, hresize, harray, hlt⟩
  · rintro ⟨⟨hfits, hstores⟩, hresize, harray, hlt⟩
    exact ⟨hfits, harray, hresize, hlt, fun i hi => (hstores i hi).2.2⟩

theorem complete_nameArray_iff {l : List Bytes} :
    Complete (nameArray m l) l ↔ m.resize = true ∧ lastSlot m l.length = .null := by
  unfold nameArray
  cases m.resize with
  | false =>
    refine iff_of_false (fun h => ?_) (by simp)
    obtain ⟨_, _, heq⟩ := h.holds
    cases heq
  | true =>
    rw [if_pos rfl, complete_iff (List.Perm.refl l)]
    exact (and_iff_right rfl).symm

/-- What the three functions have in common. -/
theorem listDir_complete_iff (err : ℤ) :
    (∃ s, listDir m path want entries err = some s ∧ Complete s.result (names want entries)) ↔
      ListGood m path want entries := by
  rw [listGood_iff]
  constructor
  · rintro ⟨s, hs, hcomplete⟩
    obtain ⟨hlistable, rfl⟩ := listDir_eq_some.mp hs
    exact ⟨hlistable, complete_nameArray_iff.mp hcomplete⟩
  · rintro ⟨hlistable, hlast⟩
    exact ⟨_, listDir_eq_some.mpr ⟨hlistable, rfl⟩, complete_nameArray_iff.mpr hlast⟩

variable (old : Listing)

theorem subdirSortCall_eq {l : List Bytes} (err : ℤ) :
    subdirSortCall ⟨nameArray m l, l.length, err⟩ = ⟨nameArray m l, 0, l.length - 1⟩ := by
  have hhi : ((l.length + 1 : ℕ) : ℤ) - 2 = l.length - 1 := by omega
  simp only [subdirSortCall, hhi]

/-- `lcs_comm_subdir` behind the loop: the array is sorted. -/
theorem lcsCommSubdir_eq (hlistable : Listable m path .directory entries) (k : ℕ) :
    lcsCommSubdir m path true (some entries) old k =
      (SortCall.run k ⟨nameArray m (names .directory entries), 0,
        (names .directory entries).length - 1⟩).map fun arr =>
          ⟨some arr, old.count, entries.foldl entryErr old.err⟩ := by
  have hlist := listDir_eq_some.mpr ⟨hlistable, @rfl _ (⟨nameArray m (names .directory entries),
    (names .directory entries).length, entries.foldl entryErr old.err⟩ : Listing)⟩
  unfold lcsCommSubdir
  rw [if_pos rfl]
  simp only [hlist, subdirSortCall_eq, bind, Option.bind_some]
  cases SortCall.run k _ with
  | none => rfl
  | some arr => rfl

/-- Without names there is nothing to sort, but the first slot is compared. -/
theorem run_nil (m : Memory) (k : ℕ) (hi : ℤ) :
    SortCall.run k ⟨nameArray m [], 0, hi⟩ = none := by
  unfold nameArray
  cases m.resize with
  | false => rfl
  | true => exact run_empty (lastSlot_ne_ptr m 0) k hi

end Complete

theorem files_complete_iff (m : Memory) (path : Bytes) (entries : List Dirent) (old : Listing) :
    (∃ out, lcsCommListFiles m path true (some entries) old = some out ∧
        Complete out.result (names .regular entries)) ↔ ListGood m path .regular entries := by
  rw [← listDir_complete_iff old.err]
  constructor
  · rintro ⟨out, hout, hcomplete⟩
    obtain ⟨s, hs, hset⟩ := Option.bind_eq_some_iff.mp hout
    cases hset
    exact ⟨s, hs, hcomplete⟩
  · rintro ⟨s, hs, hcomplete⟩
    exact ⟨_, Option.bind_eq_some_iff.mpr ⟨s, hs, rfl⟩, hcomplete⟩

theorem subdir_complete_iff (m : Memory) (path : Bytes) (entries : List Dirent) (old : Listing) :
    (∃ out, (∀ k, (names .directory entries).length ≤ k →
          lcsCommSubdir m path true (some entries) old k = some out) ∧
        Complete out.result (names .directory entries)) ↔
      ListGood m path .directory entries ∧ names .directory entries ≠ [] := by
  rw [listGood_iff]
  constructor
  · rintro ⟨out, hout, hcomplete⟩
    have hrun := hout _ le_rfl
    obtain ⟨s, hs, -⟩ := Option.bind_eq_some_iff.mp hrun
    have hlistable := (listDir_eq_some.mp hs).1
    rw [lcsCommSubdir_eq old hlistable] at hrun
    obtain ⟨arr, harr, hset⟩ := Option.map_eq_some_iff.mp hrun
    have hne : names .directory entries ≠ [] := by
      intro hnil
      rw [hnil, run_nil] at harr
      cases harr
    have hresize : m.resize = true := by
      by_contra hfalse
      rw [nameArray, if_neg hfalse] at harr
      cases harr
    rw [nameArray, if_pos hresize] at harr
    obtain ⟨l', hperm, _, hsort⟩ := run_names (lastSlot_ne_ptr m _) hne hlistable.length_le
    rw [hsort _ le_rfl] at harr
    cases harr
    cases hset
    exact ⟨⟨hlistable, hresize, (complete_iff hperm _).mp hcomplete⟩, hne⟩
  · rintro ⟨⟨hlistable, hresize, hlast⟩, hne⟩
    obtain ⟨l', hperm, _, hsort⟩ := run_names (lastSlot_ne_ptr m _) hne hlistable.length_le
    refine ⟨⟨some (l'.map Slot.ptr ++ [lastSlot m (names .directory entries).length]), old.count,
      entries.foldl entryErr old.err⟩, fun k hk => ?_, (complete_iff hperm _).mpr hlast⟩
    rw [lcsCommSubdir_eq old hlistable, nameArray, if_pos hresize, hsort k hk]
    rfl

/-- The three functions list a directory completely if and only if its paths fit, no
allocation fails and there are fewer than 62 names, for `lcs_comm_subdir` one at least. -/
theorem listings_complete_iff (m : Memory) (path : Bytes) (entries : List Dirent) (old : Listing) :
    ((∃ out, lcsCommSubdirExt m path true (some entries) old = some out ∧
        Complete out.result (names .directory entries)) ↔ ListGood m path .directory entries) ∧
    ((∃ out, lcsCommListFiles m path true (some entries) old = some out ∧
        Complete out.result (names .regular entries)) ↔ ListGood m path .regular entries) ∧
    ((∃ out, (∀ k, (names .directory entries).length ≤ k →
          lcsCommSubdir m path true (some entries) old k = some out) ∧
        Complete out.result (names .directory entries)) ↔
      ListGood m path .directory entries ∧ names .directory entries ≠ []) :=
  ⟨listDir_complete_iff old.err, files_complete_iff m path entries old,
    subdir_complete_iff m path entries old⟩

/-- No allocation fails. -/
def allMemory : Memory := ⟨true, fun _ => true, true⟩

/-- 62 directories `a`, `aa`, ... -/
def manyDirs : List Dirent :=
  (List.finRange 62).map fun i : Fin 62 =>
    ⟨⟨List.replicate (i.val + 1) 97, by rw [List.length_replicate]; omega, by simp⟩,
      some .directory⟩

/-- The walk over 62 names comes to a slot that was never written. -/
theorem full_array_unterminated :
    ∃ out, lcsCommSubdirExt allMemory [47, 100] true (some manyDirs) ⟨none, 0, 0⟩ = some out ∧
      out.count = 62 ∧ out.result.bind walk = none ∧
      ¬ Complete out.result (names .directory manyDirs) := by
  have hlen : (names .directory manyDirs).length = 62 := by decide +kernel
  have hfits : ∀ dent ∈ manyDirs, EntryFits [47, 100] dent := by
    intro dent hdent
    have hname := dent.name.lt
    have hpath : strlen [47, 100] = 2 := by decide
    exact Or.inr (by omega)
  have hlistable : Listable allMemory [47, 100] .directory manyDirs :=
    ⟨hfits, fun i hi => ⟨rfl, by omega, rfl⟩⟩
  have hlast : lastSlot allMemory (names .directory manyDirs).length = .junk := by
    rw [hlen]
    rfl
  refine ⟨_, listDir_eq_some.mpr ⟨hlistable, rfl⟩, hlen, ?_, ?_⟩
  · dsimp only
    rw [nameArray, if_pos (show allMemory.resize = true from rfl), hlast, Option.bind_some,
      walk_append]
    rfl
  · dsimp only
    rw [complete_nameArray_iff, hlast]
    simp

/-! ### The sort stays in range -/

/-- The call succeeds on an array that has the first `n` cells only, a null pointer not being
a value: it looks at no other index and compares no null pointer. -/
def InRange (n : ℕ) (c : SortCall) : Prop :=
  ∃ arr, c.arr = some arr ∧ ∃ cells, ∀ k, n ≤ k →
    lcsQuickSort id k (only (nameCells arr) 0 (n - 1)) c.low c.hi = some cells

theorem only_ofList (l : List Bytes) : only (ofList l) 0 (l.length - 1) = ofList l := by
  ext k : 1
  unfold only ofList
  by_cases hk : 0 ≤ k
  · by_cases hlt : k ≤ l.length - 1
    · rw [if_pos ⟨hk, hlt⟩]
    · rw [if_neg (fun h => hlt h.2), if_pos hk, List.getElem?_eq_none (by omega)]
  · rw [if_neg (fun h => hk h.1), if_neg hk]

theorem inRange_iff (m : Memory) {l : List Bytes} (hlen : l.length ≤ 62) :
    InRange l.length ⟨nameArray m l, 0, l.length - 1⟩ ↔ m.resize = true ∧ l ≠ [] := by
  unfold InRange nameArray
  cases m.resize with
  | false => simp
  | true =>
    simp only [if_true, Option.some.injEq, exists_eq_left', true_and,
      nameCells_names (lastSlot_ne_ptr m l.length), only_ofList]
    constructor
    · rintro ⟨cells, hrun⟩ rfl
      have hnone := @lcsQuickSort_none (ofList []) 0 rfl 0 (([] : List Bytes).length - 1)
      rw [hrun 0 le_rfl] at hnone
      cases hnone
    · intro hne
      obtain ⟨l', hrun, _⟩ := lcsQuickSortExt_list strcmp_isComparison hne (by omega)
      exact ⟨ofList l', hrun⟩

theorem hourSortCall_eq (m : Memory) (path : Bytes) (entries : List Dirent) :
    hourSortCall m path (some entries) = (listDir m path .directory entries 0).map fun s =>
      s.result.map fun arrdir => ⟨some arrdir, 0, s.count - 1⟩ := by
  unfold hourSortCall lcsCommSubdirExt
  rw [if_pos rfl]
  dsimp only
  cases listDir m path .directory entries 0 with
  | none => rfl
  | some s =>
    obtain ⟨result, count, err⟩ := s
    cases result with
    | none => rfl
    | some arrdir => rfl

theorem mem_hourCall {m : Memory} {l : List Bytes} {hi : ℤ} {call : SortCall} :
    call ∈ (nameArray m l).map (fun arrdir => (⟨some arrdir, 0, hi⟩ : SortCall)) ↔
      m.resize = true ∧ call = ⟨nameArray m l, 0, hi⟩ := by
  unfold nameArray
  cases m.resize with
  | false => simp
  | true => simp [eq_comm]

/-- The two sorts of a listing stay in it if and only if the listing has stayed in its array
and there is a name; the hour program makes no call where the `realloc` failed. -/
theorem sorts_in_range_iff (m : Memory) (path : Bytes) (entries : List Dirent) (err : ℤ) :
    ((∃ s, listDir m path .directory entries err = some s ∧
        InRange (names .directory entries).length (subdirSortCall s)) ↔
      Listable m path .directory entries ∧ m.resize = true ∧ names .directory entries ≠ []) ∧
    ((∃ c, hourSortCall m path (some entries) = some c ∧
        ∀ call ∈ c, InRange (names .directory entries).length call) ↔
      Listable m path .directory entries ∧
        (m.resize = true → names .directory entries ≠ [])) := by
  constructor
  · constructor
    · rintro ⟨s, hs, hrange⟩
      obtain ⟨hlistable, rfl⟩ := listDir_eq_some.mp hs
      rw [subdirSortCall_eq, inRange_iff m hlistable.length_le] at hrange
      exact ⟨hlistable, hrange⟩
    · rintro ⟨hlistable, hrange⟩
      refine ⟨_, listDir_eq_some.mpr ⟨hlistable, rfl⟩, ?_⟩
      rwa [subdirSortCall_eq, inRange_iff m hlistable.length_le]
  · rw [hourSortCall_eq]
    constructor
    · rintro ⟨c, hc, hrange⟩
      obtain ⟨s, hs, rfl⟩ := Option.map_eq_some_iff.mp hc
      obtain ⟨hlistable, rfl⟩ := listDir_eq_some.mp hs
      refine ⟨hlistable, fun hresize => ?_⟩
      exact ((inRange_iff m hlistable.length_le).mp (hrange _ (mem_hourCall.mpr ⟨hresize, rfl⟩))).2
    · rintro ⟨hlistable, hne⟩
      refine ⟨_, Option.map_eq_some_iff.mpr ⟨_, listDir_eq_some.mpr ⟨hlistable, rfl⟩, rfl⟩, ?_⟩
      intro call hcall
      obtain ⟨hresize, rfl⟩ := mem_hourCall.mp hcall
      exact (inRange_iff m hlistable.length_le).mpr ⟨hresize, hne hresize⟩

/-- A directory with no entries of its own. -/
def dots : List Dirent :=
  [⟨⟨[46], by decide, by decide⟩, some .directory⟩,
    ⟨⟨[46, 46], by decide, by decide⟩, some .directory⟩]

/-- Both calls are given the range from 0 to -1, in an array of one null pointer. -/
theorem empty_listing_sorted :
    ∃ s, listDir allMemory [47, 100] .directory dots 0 = some s ∧
      subdirSortCall s = ⟨some [.null], 0, -1⟩ ∧
      hourSortCall allMemory [47, 100] (some dots) = some (some ⟨some [.null], 0, -1⟩) ∧
      ¬ InRange 0 ⟨some [.null], 0, -1⟩ := by
  have hnames : names .directory dots = [] := by decide
  have hfits : ∀ dent ∈ dots, EntryFits [47, 100] dent := by
    intro dent hdent
    have hdot : ∀ dent ∈ dots, isDot dent := by
      simp only [dots, List.forall_mem_cons]
      decide
    exact Or.inl (hdot dent hdent)
  have hlistable : Listable allMemory [47, 100] .directory dots :=
    ⟨hfits, fun i hi => absurd hi (by simp [hnames])⟩
  have harray : nameArray allMemory (names .directory dots) = some [.null] := by rw [hnames]; rfl
  have hlist := listDir_eq_some.mpr ⟨hlistable, @rfl _ (⟨nameArray allMemory
    (names .directory dots), (names .directory dots).length, dots.foldl entryErr 0⟩ : Listing)⟩
  refine ⟨_, hlist, ?_, ?_, ?_⟩
  · rw [subdirSortCall_eq, harray, hnames]
    rfl
  · rw [hourSortCall_eq, hlist, Option.map_some]
    dsimp only
    rw [harray, hnames]
    rfl
  · intro hrange
    exact ((inRange_iff allMemory (l := []) (by simp)).mp hrange).2 rfl

end MemoryLeak.Cluster
