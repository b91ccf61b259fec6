import MemoryLeak.CBytes
import Mathlib.Logic.Function.Basic
import Mathlib.Data.List.Nodup

/-!
# Heaps of cells and of byte blocks

A heap maps addresses to live cells. Linked chains are described over the
addresses they pass through, so that a frame is a fact about addresses. Byte
blocks know their size: a store outside a live block has no outcome, and an
address that was freed or moved away from stays dead.
-/
namespace MemoryLeak.Heap
open MemoryLeak.CBytes

section Chains

variable {β : Type*} (next : β → Option ℕ)

/-- The chain from a pointer passes through these addresses, all live, and ends. -/
def Linked (h : ℕ → Option β) : Option ℕ → List ℕ → Prop
  | p, [] => p = none
  | p, a :: as => p = some a ∧ ∃ c, h a = some c ∧ Linked h (next c) as

/-- The cells found along a list of addresses. -/
def cellsAt (h : ℕ → Option β) (as : List ℕ) : List β := as.filterMap h

variable {next} {h h' : ℕ → Option β}

theorem Linked.live {p : Option ℕ} {as : List ℕ} (hc : Linked next h p as) :
    ∀ a ∈ as, ∃ c, h a = some c := by
  induction as generalizing p with
  | nil => simp
  | cons a as ih =>
    obtain ⟨_, c, hcell, hrest⟩ := hc
    intro x hx
    rcases List.mem_cons.mp hx with rfl | hx
    · exact ⟨c, hcell⟩
    · exact ih hrest x hx

/-- Frame: a chain does not see cells outside it. -/
theorem Linked.congr {p : Option ℕ} {as : List ℕ} (hc : Linked next h p as)
    (heq : ∀ a ∈ as, h' a = h a) : Linked next h' p as := by
  induction as generalizing p with
  | nil => exact hc
  | cons a as ih =>
    obtain ⟨hp, c, hcell, hrest⟩ := hc
    refine ⟨hp, c, by rw [heq a (by simp)]; exact hcell, ?_⟩
    exact ih hrest (fun x hx => heq x (by simp [hx]))

theorem cellsAt_congr {as : List ℕ} (heq : ∀ a ∈ as, h' a = h a) :
    cellsAt h' as = cellsAt h as :=
  List.filterMap_congr heq

/-- A dead address is on no chain. -/
theorem Linked.not_mem {p : Option ℕ} {as : List ℕ} (hc : Linked next h p as) {a : ℕ}
    (ha : h a = none) : a ∉ as := by
  intro hmem
  obtain ⟨c, hcell⟩ := hc.live a hmem
  rw [ha] at hcell
  cases hcell

/-- A live pointer starts its chain. -/
theorem Linked.uncons {a : ℕ} {as : List ℕ} (hc : Linked next h (some a) as) :
    ∃ c rest, as = a :: rest ∧ h a = some c ∧ Linked next h (next c) rest := by
  cases as with
  | nil => cases hc
  | cons x rest =>
    obtain ⟨hx, c, hcell, hrest⟩ := hc
    cases hx
    exact ⟨c, rest, rfl, hcell, hrest⟩

theorem linked_none_iff {as : List ℕ} : Linked next h none as ↔ as = [] := by
  cases as with
  | nil => simp [Linked]
  | cons a as => simp [Linked]

/-! ### Families of disjoint chains -/

variable {ι γ : Type*} [DecidableEq ι] (next) (val : β → γ)

/-- Owners hold disjoint chains; what stands along the chain of `i` reads `vals i`. -/
def Holds (h : ℕ → Option β) (root : ι → Option ℕ) (vals : ι → List γ) : Prop :=
  ∃ as : ι → List ℕ,
    (∀ i, Linked next h (root i) (as i) ∧ (as i).Nodup ∧ (cellsAt h (as i)).map val = vals i) ∧
    ∀ i j, i ≠ j → List.Disjoint (as i) (as j)

variable {next val} {root : ι → Option ℕ} {vals : ι → List γ} {i j : ι} {a : ℕ}

/-- A cell outside a list of addresses is not seen along it. -/
theorem update_frame {as : List ℕ} (ha : a ∉ as) (o : Option β) :
    ∀ x ∈ as, Function.update h a o x = h x := by
  intro x hx
  have hxa : x ≠ a := by
    rintro rfl
    exact ha hx
  exact Function.update_of_ne hxa _ _

/-- One owner's addresses are replaced by some that no other owner holds. -/
theorem disjoint_update {as : ι → List ℕ} {l : List ℕ}
    (hdis : ∀ i j, i ≠ j → List.Disjoint (as i) (as j)) (hl : ∀ k, k ≠ i → List.Disjoint l (as k)) :
    ∀ j k, j ≠ k → List.Disjoint (Function.update as i l j) (Function.update as i l k) := by
  intro j k hjk
  by_cases hj : j = i
  · subst hj
    rw [Function.update_self, Function.update_of_ne (Ne.symm hjk)]
    exact hl k (Ne.symm hjk)
  · rw [Function.update_of_ne hj]
    by_cases hk : k = i
    · subst hk
      rw [Function.update_self]
      exact List.disjoint_symm (hl j hj)
    · rw [Function.update_of_ne hk]
      exact hdis j k hjk

/-- An owner without a chain allocates a cell. -/
theorem Holds.alloc (hh : Holds next val h root vals) (ha : h a = none) {c : β}
    (hc : next c = none) :
    Holds next val (Function.update h a (some c)) (Function.update root i (some a))
      (Function.update vals i [val c]) := by
  obtain ⟨as, hown, hdis⟩ := hh
  have hnot : ∀ k, a ∉ as k := fun k => (hown k).1.not_mem ha
  refine ⟨Function.update as i [a], ?_, disjoint_update hdis (by simp [hnot])⟩
  intro k
  by_cases hk : k = i
  · subst hk
    simp [Linked, hc, cellsAt]
  · obtain ⟨hchain, hnodup, hvals⟩ := hown k
    have hf := update_frame (h := h) (hnot k) (some c)
    simp only [Function.update_of_ne hk]
    exact ⟨hchain.congr hf, hnodup, by rw [cellsAt_congr hf, hvals]⟩

/-- An owner gives its chain up. -/
theorem Holds.drop (hh : Holds next val h root vals) :
    Holds next val h (Function.update root i none) (Function.update vals i []) := by
  obtain ⟨as, hown, hdis⟩ := hh
  refine ⟨Function.update as i [], ?_, disjoint_update hdis (by simp)⟩
  intro k
  by_cases hk : k = i
  · subst hk
    simp [Linked, cellsAt]
  · simpa [Function.update_of_ne hk] using hown k

/-- The chain of `j` becomes the chain of `i`. -/
theorem Holds.move (hh : Holds next val h root vals) :
    Holds next val h (Function.update (Function.update root j none) i (root j))
      (Function.update (Function.update vals j []) i (vals j)) := by
  obtain ⟨as, hown, hdis⟩ := hh
  have hrest : ∀ k, List.Disjoint (as j) (Function.update as j [] k) := by
    intro k
    by_cases hk : k = j
    · subst hk
      simp
    · rw [Function.update_of_ne hk]
      exact hdis j k (Ne.symm hk)
  refine ⟨Function.update (Function.update as j []) i (as j), ?_,
    disjoint_update (disjoint_update hdis (by simp)) (fun k _ => hrest k)⟩
  intro k
  by_cases hki : k = i
  · subst hki
    simpa using hown j
  · by_cases hkj : k = j
    · subst hkj
      simp [Function.update_of_ne hki, Linked, cellsAt]
    · simpa [Function.update_of_ne hki, Function.update_of_ne hkj] using hown k

/-- The first cell of a chain is live; its owner passes it and may change or free it. -/
theorem Holds.pop (hh : Holds next val h root vals) (hr : root i = some a) :
    ∃ c rest, h a = some c ∧ vals i = val c :: rest ∧ ∀ o : Option β,
      Holds next val (Function.update h a o) (Function.update root i (next c))
        (Function.update vals i rest) := by
  obtain ⟨as, hown, hdis⟩ := hh
  obtain ⟨hchain, hnodup, hvals⟩ := hown i
  rw [hr] at hchain
  obtain ⟨c, rest, has, hcell, hrest⟩ := hchain.uncons
  rw [has] at hnodup hvals
  obtain ⟨hai, hnodup⟩ := List.nodup_cons.mp hnodup
  have hother : ∀ k, k ≠ i → a ∉ as k ∧ List.Disjoint rest (as k) := by
    intro k hk
    have hd := hdis i k (Ne.symm hk)
    rwa [has, List.disjoint_cons_left] at hd
  refine ⟨c, (cellsAt h rest).map val, hcell, ?_, ?_⟩
  · rw [← hvals]
    simp [cellsAt, hcell]
  · intro o
    refine ⟨Function.update as i rest, ?_, disjoint_update hdis (fun k hk => (hother k hk).2)⟩
    intro k
    by_cases hk : k = i
    · subst hk
      have hf := update_frame (h := h) hai o
      simp only [Function.update_self]
      exact ⟨hrest.congr hf, hnodup, by rw [cellsAt_congr hf]⟩
    · obtain ⟨hchain', hnodup', hvals'⟩ := hown k
      have hf := update_frame (h := h) (hother k hk).1 o
      simp only [Function.update_of_ne hk]
      exact ⟨hchain'.congr hf, hnodup', by rw [cellsAt_congr hf, hvals']⟩

omit [DecidableEq ι] in
/-- An owner of one value points at a live cell with nothing behind it. -/
theorem Holds.single (hh : Holds next val h root vals) (hr : root i = some a) {v : γ}
    (hv : vals i = [v]) : ∃ c, h a = some c ∧ next c = none ∧ val c = v := by
  obtain ⟨as, hown, _⟩ := hh
  obtain ⟨hchain, _, hvals⟩ := hown i
  rw [hr] at hchain
  obtain ⟨c, rest, has, hcell, hrest⟩ := hchain.uncons
  have hlist : val c :: (cellsAt h rest).map val = [v] := by
    rw [← hv, ← hvals, has]
    simp [cellsAt, hcell]
  obtain ⟨hval, hnil⟩ := List.cons.inj hlist
  refine ⟨c, hcell, ?_, hval⟩
  cases rest with
  | nil => exact hrest
  | cons b rest =>
    obtain ⟨_, d, hd, _⟩ := hrest
    simp [cellsAt, hd] at hnil

/-- The single cell of `i` goes in front of the chain of `j`. -/
theorem Holds.push (hh : Holds next val h root vals) (hij : i ≠ j) {c c' : β}
    (hr : root i = some a) (hcell : h a = some c) (hend : next c = none) (hn : next c' = root j) :
    Holds next val (Function.update h a (some c')) (Function.update (Function.update root i none) j
      (some a)) (Function.update (Function.update vals i []) j (val c' :: vals j)) := by
  obtain ⟨as, hown, hdis⟩ := hh
  have hsingle : as i = [a] := by
    have hchain := (hown i).1
    rw [hr] at hchain
    obtain ⟨d, rest, has, hd, hrest⟩ := hchain.uncons
    cases hcell.symm.trans hd
    rw [hend, linked_none_iff] at hrest
    rw [has, hrest]
  have hnot : ∀ k, k ≠ i → a ∉ as k := by
    intro k hk hmem
    exact hdis k i hk hmem (by simp [hsingle])
  have hfront : ∀ k, k ≠ j → List.Disjoint (a :: as j) (Function.update as i [] k) := by
    intro k hk
    by_cases hki : k = i
    · subst hki
      simp
    · rw [Function.update_of_ne hki, List.disjoint_cons_left]
      exact ⟨hnot k hki, hdis j k (Ne.symm hk)⟩
  refine ⟨Function.update (Function.update as i []) j (a :: as j), ?_,
    disjoint_update (disjoint_update hdis (by simp)) hfront⟩
  intro k
  by_cases hkj : k = j
  · subst hkj
    obtain ⟨hchain, hnodup, hvals⟩ := hown k
    have hf := update_frame (h := h) (hnot k (Ne.symm hij)) (some c')
    simp only [Function.update_self]
    refine ⟨⟨rfl, c', by simp, ?_⟩, List.nodup_cons.mpr ⟨hnot k (Ne.symm hij), hnodup⟩, ?_⟩
    · rw [hn]
      exact hchain.congr hf
    · rw [← hvals, ← cellsAt_congr hf]
      simp [cellsAt]
  · by_cases hki : k = i
    · subst hki
      simp [Function.update_of_ne hkj, Linked, cellsAt]
    · obtain ⟨hchain, hnodup, hvals⟩ := hown k
      have hf := update_frame (h := h) (hnot k hki) (some c')
      simp only [Function.update_of_ne hkj, Function.update_of_ne hki]
      exact ⟨hchain.congr hf, hnodup, by rw [cellsAt_congr hf, hvals]⟩

/-- Reading along a chain from a pointer, `fuel` cells at most. -/
def readChain (next : β → Option ℕ) (h : ℕ → Option β) : ℕ → Option ℕ → Option (List β)
  | _, none => some []
  | 0, some _ => none
  | fuel + 1, some a => (h a).bind fun c => (readChain next h fuel (next c)).map (c :: ·)

theorem readChain_eq {fuel : ℕ} {p : Option ℕ} {as : List ℕ} (hc : Linked next h p as)
    (hf : as.length ≤ fuel) : readChain next h fuel p = some (cellsAt h as) := by
  induction fuel generalizing p as with
  | zero =>
    have has : as = [] := List.length_eq_zero_iff.mp (by omega)
    subst has
    simp [show p = none from hc, readChain, cellsAt]
  | succ fuel ih =>
    cases as with
    | nil => simp [show p = none from hc, readChain, cellsAt]
    | cons a rest =>
      obtain ⟨rfl, c, hcell, hrest⟩ := hc
      simp only [List.length_cons] at hf
      rw [readChain, hcell, Option.bind_some, ih hrest (by omega)]
      simp [cellsAt, hcell]

omit [DecidableEq ι] in
/-- Every owner can read its chain, and reads what it holds. -/
theorem Holds.read (hh : Holds next val h root vals) {fuel : ℕ} (hf : (vals i).length ≤ fuel) :
    ∃ cs, readChain next h fuel (root i) = some cs ∧ cs.map val = vals i := by
  obtain ⟨as, hown, _⟩ := hh
  obtain ⟨hchain, _, hvals⟩ := hown i
  have hlen : (vals i).length = (as i).length := by
    rw [← hvals, List.length_map, cellsAt, List.length_filterMap_eq_countP]
    rw [List.countP_eq_length]
    intro x hx
    obtain ⟨c, hc⟩ := hchain.live x hx
    simp [hc]
  exact ⟨_, readChain_eq hchain (by omega), hvals⟩

end Chains

section Blocks

/-- Blocks of bytes, allocated at increasing addresses. -/
structure ByteHeap where
  block : ℕ → Option Bytes
  next : ℕ
  fresh : ∀ a, next ≤ a → block a = none

namespace ByteHeap

def empty : ByteHeap := ⟨fun _ => none, 0, fun _ _ => rfl⟩

variable (h : ByteHeap)

theorem lt_next {a : ℕ} {b : Bytes} (hb : h.block a = some b) : a < h.next := by
  by_contra hge
  rw [h.fresh a (by omega)] at hb
  cases hb

/-- Put a block at a live or at the next address. -/
def put (a : ℕ) (b : Bytes) (ha : a ≤ h.next) : ByteHeap where
  block := Function.update h.block a (some b)
  next := max h.next (a + 1)
  fresh := by
    intro x hx
    rw [Function.update_of_ne (by omega)]
    exact h.fresh x (by omega)

/-- A cleared block of `n` bytes at a new address. -/
def malloc (n : ℕ) : ℕ × ByteHeap := (h.next, h.put h.next (zeros n) le_rfl)

/-- Copy bytes into a live block; outside its bounds there is no outcome. -/
def store (a off : ℕ) (src : Bytes) : Option ByteHeap :=
  match hb : h.block a with
  | none => none
  | some b =>
    if off + src.length ≤ b.length then
      some (h.put a (memcpy b off src) (h.lt_next hb).le)
    else none

def free (a : ℕ) : ByteHeap where
  block := Function.update h.block a none
  next := h.next
  fresh := by
    intro x hx
    by_cases hxa : x = a
    · simp [hxa]
    · rw [Function.update_of_ne hxa]
      exact h.fresh x hx

/-- The bytes of a block resized to `n`, the new ones unspecified. -/
def resize (b : Bytes) (n : ℕ) (junk : Bytes) : Bytes := (b ++ junk ++ zeros n).take n

/-- `realloc`: the block stays in place or moves, and then its old address dies. -/
def realloc (a n : ℕ) (junk : Bytes) (moves : Bool) : Option (ℕ × ByteHeap) :=
  match hb : h.block a with
  | none => none
  | some b =>
    if moves then some ((h.free a).next, (h.free a).put (h.free a).next (resize b n junk) le_rfl)
    else some (a, h.put a (resize b n junk) (h.lt_next hb).le)

variable {h}

@[simp] theorem put_block_self (a : ℕ) (b : Bytes) (ha : a ≤ h.next) :
    (h.put a b ha).block a = some b := by simp [put]

theorem put_block_of_ne {a x : ℕ} (b : Bytes) (ha : a ≤ h.next) (hx : x ≠ a) :
    (h.put a b ha).block x = h.block x := by simp [put, hx]

/-- What a store needs and does. -/
theorem store_eq_some_iff {a off : ℕ} {src : Bytes} {h' : ByteHeap} :
    h.store a off src = some h' ↔ ∃ b, ∃ hb : h.block a = some b, off + src.length ≤ b.length ∧
      h' = h.put a (memcpy b off src) (h.lt_next hb).le := by
  unfold store
  split
  · next hb => simp [hb]
  · next b hb =>
    constructor
    · intro hs
      split_ifs at hs with hfit
      exact ⟨b, hb, hfit, by simpa using hs.symm⟩
    · rintro ⟨b', hb', hfit, rfl⟩
      cases hb.symm.trans hb'
      rw [if_pos hfit]

/-- A store inside a live block changes that block only. -/
theorem store_live {a off : ℕ} {src b : Bytes} (hb : h.block a = some b)
    (hfit : off + src.length ≤ b.length) :
    ∃ h', h.store a off src = some h' ∧ h'.block a = some (memcpy b off src) ∧
      (∀ x, x ≠ a → h'.block x = h.block x) ∧ h'.next = h.next := by
  refine ⟨_, store_eq_some_iff.mpr ⟨b, hb, hfit, rfl⟩, by simp,
    fun x hx => put_block_of_ne _ _ hx, ?_⟩
  have := h.lt_next hb
  simp only [put]
  omega

/-- A resized block is live at the address returned. Its old address is dead when
the block moved, and every other block is kept. -/
theorem realloc_live {a n : ℕ} {b : Bytes} (hb : h.block a = some b) (junk : Bytes) (moves : Bool) :
    ∃ a' h', h.realloc a n junk moves = some (a', h') ∧
      h'.block a' = some (resize b n junk) ∧
      (if moves then a' = h.next ∧ h'.block a = none else a' = a) ∧
      ∀ x, x < h.next → x ≠ a → h'.block x = h.block x := by
  have hlt := h.lt_next hb
  unfold realloc
  split
  · next hn =>
    rw [hb] at hn
    cases hn
  · next b' hb' =>
    cases hb.symm.trans hb'
    cases moves with
    | true =>
      have hnext : (h.free a).next = h.next := rfl
      refine ⟨_, _, if_pos rfl, put_block_self _ _ _, ?_, ?_⟩
      · refine ⟨rfl, ?_⟩
        rw [put_block_of_ne _ _ (by omega)]
        simp [free]
      · intro x hx hxa
        rw [put_block_of_ne _ _ (by omega)]
        simp [free, hxa]
    | false =>
      exact ⟨a, h.put a (resize b n junk) hlt.le, by simp, put_block_self _ _ _, by simp,
        fun x _ hxa => put_block_of_ne _ _ hxa⟩

theorem store_next_le {a off : ℕ} {src : Bytes} {h' : ByteHeap} (hs : h.store a off src = some h') :
    h.next ≤ h'.next := by
  obtain ⟨b, _, _, rfl⟩ := store_eq_some_iff.mp hs
  exact le_max_left _ _

theorem realloc_next_le {a n a' : ℕ} {junk : Bytes} {moves : Bool} {h' : ByteHeap}
    (hr : h.realloc a n junk moves = some (a', h')) : h.next ≤ h'.next := by
  unfold realloc at hr
  split at hr
  · cases hr
  · split_ifs at hr
    · cases hr
      exact le_max_left _ _
    · cases hr
      exact le_max_left _ _

theorem malloc_block (n : ℕ) : (h.malloc n).2.block h.next = some (zeros n) := by
  simp [malloc]

theorem malloc_block_of_lt {n x : ℕ} (hx : x < h.next) : (h.malloc n).2.block x = h.block x :=
  put_block_of_ne _ le_rfl (by omega)

theorem malloc_next (n : ℕ) : (h.malloc n).2.next = h.next + 1 := by
  simp [malloc, put]

theorem resize_length (b junk : Bytes) (n : ℕ) : (resize b n junk).length = n := by
  simp [resize]
  omega

/-- Growing a block keeps its bytes. -/
theorem resize_take {b junk : Bytes} {n : ℕ} (hn : b.length ≤ n) :
    (resize b n junk).take b.length = b := by
  rw [resize, List.take_take, Nat.min_eq_left hn, List.append_assoc, List.take_left' rfl]

end ByteHeap

end Blocks

end MemoryLeak.Heap
