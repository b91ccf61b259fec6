import MemoryLeak.Loops
import Mathlib.Algebra.GroupWithZero.Nat
import Mathlib.Data.Set.Lattice
import Mathlib.Data.Set.Piecewise
import Mathlib.Order.CompletePartialOrder

/-!
# Work on disjoint parts of a memory

A piece of work that reads and writes the cells of a set only. Two of them on disjoint
sets may change places, so a tree of work, where the parts of a piece lie in disjoint
subsets of its cells, may be done depth first or from a queue.
-/
namespace MemoryLeak.Footprint
open MemoryLeak.Loops
open scoped Classical

variable {ι β γ τ : Type*}

/-- Work with a result that uses the cells of `S` only: whatever stands in the other
cells has no influence and stays. -/
def LocalTo (S : Set ι) (f : (ι → β) → Option ((ι → β) × γ)) : Prop :=
  ∀ m frame, f (S.piecewise m frame) = (f m).map fun r => (S.piecewise r.1 frame, r.2)

/-- The same of work without a result. -/
def Local (S : Set ι) (f : (ι → β) → Option (ι → β)) : Prop :=
  ∀ m frame, f (S.piecewise m frame) = (f m).map fun r => S.piecewise r frame

theorem piecewise_of_eqOn {S : Set ι} {m m' : ι → β} (h : Set.EqOn m m' S) :
    S.piecewise m m' = m' := by
  ext k
  by_cases hk : k ∈ S
  · rw [Set.piecewise_eq_of_mem _ _ _ hk, h hk]
  · rw [Set.piecewise_eq_of_notMem _ _ _ hk]

theorem update_piecewise [DecidableEq ι] {S : Set ι} {i : ι} (hi : i ∈ S) (m frame : ι → β)
    (v : β) :
    Function.update (S.piecewise m frame) i v = S.piecewise (Function.update m i v) frame := by
  ext k
  by_cases hk : k = i
  · subst hk
    rw [Function.update_self, Set.piecewise_eq_of_mem _ _ _ hi, Function.update_self]
  · rw [Function.update_of_ne hk]
    by_cases hS : k ∈ S
    · rw [Set.piecewise_eq_of_mem _ _ _ hS, Set.piecewise_eq_of_mem _ _ _ hS,
        Function.update_of_ne hk]
    · rw [Set.piecewise_eq_of_notMem _ _ _ hS, Set.piecewise_eq_of_notMem _ _ _ hS]

theorem LocalTo.frame {S : Set ι} {f : (ι → β) → Option ((ι → β) × γ)} (hf : LocalTo S f)
    {m r : ι → β} {c : γ} (h : f m = some (r, c)) {k : ι} (hk : k ∉ S) : r k = m k := by
  have hm := hf m m
  rw [Set.piecewise_same, h, Option.map_some, Option.some.injEq, Prod.mk.injEq] at hm
  rw [hm.1, Set.piecewise_eq_of_notMem _ _ _ hk]

theorem Local.frame {S : Set ι} {f : (ι → β) → Option (ι → β)} (hf : Local S f) {m r : ι → β}
    (h : f m = some r) {k : ι} (hk : k ∉ S) : r k = m k := by
  have hm := hf m m
  rw [Set.piecewise_same, h, Option.map_some, Option.some.injEq] at hm
  rw [hm, Set.piecewise_eq_of_notMem _ _ _ hk]

/-- On a memory that is the same in `S`. -/
theorem Local.of_eqOn {S : Set ι} {f : (ι → β) → Option (ι → β)} (hf : Local S f)
    {m m' : ι → β} (h : Set.EqOn m m' S) : f m' = (f m).map fun r => S.piecewise r m' := by
  rw [← hf m m', piecewise_of_eqOn h]

theorem Local.mono {S T : Set ι} {f : (ι → β) → Option (ι → β)} (hf : Local S f) (h : S ⊆ T) :
    Local T f := by
  intro m frame
  have heq : Set.EqOn m (T.piecewise m frame) S := fun k hk =>
    (Set.piecewise_eq_of_mem _ _ _ (h hk)).symm
  rw [hf.of_eqOn heq]
  cases hm : f m with
  | none => rfl
  | some r =>
    rw [Option.map_some, Option.map_some, Option.some.injEq]
    ext k
    by_cases hk : k ∈ S
    · rw [Set.piecewise_eq_of_mem _ _ _ hk, Set.piecewise_eq_of_mem _ _ _ (h hk)]
    · rw [Set.piecewise_eq_of_notMem _ _ _ hk]
      by_cases hkT : k ∈ T
      · rw [Set.piecewise_eq_of_mem _ _ _ hkT, Set.piecewise_eq_of_mem _ _ _ hkT, hf.frame hm hk]
      · rw [Set.piecewise_eq_of_notMem _ _ _ hkT, Set.piecewise_eq_of_notMem _ _ _ hkT]

/-- Work in `S`, and then work in `S` that its result chooses. -/
theorem LocalTo.bind {S : Set ι} {f : (ι → β) → Option ((ι → β) × γ)}
    {g : γ → (ι → β) → Option (ι → β)} (hf : LocalTo S f)
    (hg : ∀ m r c, f m = some (r, c) → Local S (g c)) :
    Local S fun m => (f m).bind fun r => g r.2 r.1 := by
  intro m frame
  simp only [hf m frame]
  cases hm : f m with
  | none => rfl
  | some r => exact hg m r.1 r.2 hm r.1 frame

theorem LocalTo.map {S : Set ι} {δ : Type*} {f : (ι → β) → Option ((ι → β) × γ)}
    (hf : LocalTo S f) (g : γ → δ) : LocalTo S fun m => (f m).map fun r => (r.1, g r.2) := by
  intro m frame
  simp only [hf m frame, Option.map_map]
  rfl

theorem Local.foldlM {S : Set ι} {f : τ → (ι → β) → Option (ι → β)} {ts : List τ}
    (h : ∀ t ∈ ts, Local S (f t)) : Local S fun m => ts.foldlM (fun m t => f t m) m := by
  induction ts with
  | nil =>
    intro m frame
    rfl
  | cons t ts ih =>
    intro m frame
    simp only [List.foldlM_cons, bind]
    rw [h t List.mem_cons_self m frame]
    cases hm : f t m with
    | none => rfl
    | some r => exact ih (fun u hu => h u (List.mem_cons_of_mem t hu)) r frame

/-- Work on disjoint sets of cells, in the one order and in the other. -/
theorem Local.comm {S T : Set ι} {f g : (ι → β) → Option (ι → β)} (hf : Local S f)
    (hg : Local T g) (h : Disjoint S T) (m : ι → β) : (f m).bind g = (g m).bind f := by
  have hleft : ∀ r, f m = some r → g r = (g m).map fun q => T.piecewise q r := fun r hr =>
    hg.of_eqOn fun k hk => (hf.frame hr (Set.disjoint_right.mp h hk)).symm
  have hright : ∀ q, g m = some q → f q = (f m).map fun r => S.piecewise r q := fun q hq =>
    hf.of_eqOn fun k hk => (hg.frame hq (Set.disjoint_left.mp h hk)).symm
  cases hr : f m with
  | none =>
    cases hq : g m with
    | none => rfl
    | some q => rw [Option.bind_some, hright q hq, hr, Option.bind_none, Option.map_none]
  | some r =>
    cases hq : g m with
    | none => rw [Option.bind_some, hleft r hr, hq, Option.bind_none, Option.map_none]
    | some q =>
      rw [Option.bind_some, Option.bind_some, hleft r hr, hright q hq, hr, hq, Option.map_some,
        Option.map_some, Option.some.injEq]
      ext k
      by_cases hS : k ∈ S
      · have hT : k ∉ T := Set.disjoint_left.mp h hS
        rw [Set.piecewise_eq_of_mem _ _ _ hS, Set.piecewise_eq_of_notMem _ _ _ hT]
      · rw [Set.piecewise_eq_of_notMem _ _ _ hS]
        by_cases hT : k ∈ T
        · rw [Set.piecewise_eq_of_mem _ _ _ hT]
        · rw [Set.piecewise_eq_of_notMem _ _ _ hT, hf.frame hr hS, hg.frame hq hT]

/-! ### Trees of work -/

/-- Work on the cells of a task leaves tasks on disjoint parts of them, lighter together
than the task was. -/
structure Splitting (ι β τ : Type*) where
  cells : τ → Set ι
  work : τ → (ι → β) → Option ((ι → β) × List τ)
  weight : τ → ℕ
  localTo : ∀ t, LocalTo (cells t) (work t)
  within : ∀ {t m r ts}, work t m = some (r, ts) → ∀ u ∈ ts, cells u ⊆ cells t
  apart : ∀ {t m r ts}, work t m = some (r, ts) →
    ts.Pairwise fun u v => Disjoint (cells u) (cells v)
  lighter : ∀ {t m r ts}, work t m = some (r, ts) → (ts.map weight).sum < weight t

namespace Splitting

variable (P : Splitting ι β τ)

/-- The task, and then the tasks it leaves, each to its end. -/
def finish : ℕ → τ → (ι → β) → Option (ι → β)
  | 0, _, _ => none
  | d + 1, t, m => (P.work t m).bind fun r => r.2.foldlM (fun m t => finish d t m) r.1

/-- A turn on a queue of tasks: the first is done and what it leaves goes behind the others. -/
def turn (s : List τ × (ι → β)) : Option (Turn (List τ × (ι → β))) :=
  match s.1 with
  | [] => some (.leave s)
  | t :: ts => (P.work t s.2).map fun r => .again (ts ++ r.2, r.1)

def cellsOf (ts : List τ) : Set ι := {k | ∃ u ∈ ts, k ∈ P.cells u}

theorem finish_local (d : ℕ) (t : τ) : Local (P.cells t) (P.finish d t) := by
  induction d generalizing t with
  | zero =>
    intro m frame
    rfl
  | succ d ih =>
    exact (P.localTo t).bind fun m r ts h =>
      .foldlM fun u hu => (ih u).mono (P.within h u hu)

/-- Two lists of functions that agree on the tasks of a list. -/
theorem foldlM_congr {f g : τ → (ι → β) → Option (ι → β)} {ts : List τ}
    (h : ∀ t ∈ ts, ∀ m, f t m = g t m) (m : ι → β) :
    ts.foldlM (fun m t => f t m) m = ts.foldlM (fun m t => g t m) m := by
  induction ts generalizing m with
  | nil => rfl
  | cons t ts ih =>
    rw [List.foldlM_cons, List.foldlM_cons, h t List.mem_cons_self m]
    congr 1
    ext1 m'
    exact ih (fun u hu => h u (List.mem_cons_of_mem t hu)) m'

theorem weight_le_sum {t : τ} {ts : List τ} (h : t ∈ ts) :
    P.weight t ≤ (ts.map P.weight).sum := by
  obtain ⟨us, vs, rfl⟩ := List.append_of_mem h
  rw [List.map_append, List.sum_append, List.map_cons, List.sum_cons]
  omega

theorem finish_weightless {t : τ} (ht : P.weight t = 0) (d : ℕ) (m : ι → β) :
    P.finish d t m = none := by
  cases d with
  | zero => rfl
  | succ d =>
    rw [finish]
    cases hw : P.work t m with
    | none => rfl
    | some r =>
      have := P.lighter hw
      omega

/-- The depth does not matter once it covers the weight. -/
theorem finish_eq {d d' : ℕ} {t : τ} (hd : P.weight t ≤ d) (hd' : P.weight t ≤ d') (m : ι → β) :
    P.finish d t m = P.finish d' t m := by
  by_cases ht : P.weight t = 0
  · rw [P.finish_weightless ht, P.finish_weightless ht]
  induction d generalizing d' t m with
  | zero => omega
  | succ d ih =>
    obtain ⟨d', rfl⟩ : ∃ e, d' = e + 1 := ⟨d' - 1, by omega⟩
    rw [finish, finish]
    cases hw : P.work t m with
    | none => rfl
    | some r =>
      have hlight := P.lighter hw
      refine foldlM_congr (fun u hu m => ?_) r.1
      have hu' := P.weight_le_sum hu
      by_cases hu0 : P.weight u = 0
      · rw [P.finish_weightless hu0, P.finish_weightless hu0]
      · exact ih (by omega) (by omega) m hu0

theorem finish_none {t : τ} {m : ι → β} (h : P.work t m = none) (d : ℕ) :
    P.finish d t m = none := by
  cases d with
  | zero => rfl
  | succ d => rw [finish, h, Option.bind_none]

/-- What a task leaves is done to the same depth. -/
theorem finish_work {d : ℕ} {t : τ} {m r : ι → β} {us : List τ} (h : P.work t m = some (r, us))
    (hd : P.weight t ≤ d) : P.finish d t m = us.foldlM (fun m u => P.finish d u m) r := by
  have hlight := P.lighter h
  obtain ⟨d, rfl⟩ : ∃ e, d = e + 1 := ⟨d - 1, by omega⟩
  rw [finish, h, Option.bind_some]
  apply foldlM_congr
  intro u hu m'
  have hu' : P.weight u ≤ (us.map P.weight).sum := P.weight_le_sum hu
  exact P.finish_eq (by omega) (by omega) m'

theorem foldlM_finish_local (d : ℕ) {S : Set ι} {ts : List τ} (h : ∀ t ∈ ts, P.cells t ⊆ S) :
    Local S fun m => ts.foldlM (fun m t => P.finish d t m) m :=
  .foldlM fun t ht => (P.finish_local d t).mono (h t ht)

/-- From the queue the tasks are done turn by turn, a piece of each at a time; as they lie
apart, what is left is what is left when each is brought to its end before the next. -/
theorem queue_eq_finish {d n : ℕ} {ts : List τ} {m : ι → β}
    (hapart : ts.Pairwise fun u v => Disjoint (P.cells u) (P.cells v))
    (hd : (ts.map P.weight).sum ≤ d) (hn : (ts.map P.weight).sum < n) :
    whileLoop P.turn n (ts, m) =
      (ts.foldlM (fun m t => P.finish d t m) m).map fun r => ([], r) := by
  induction n generalizing ts m with
  | zero => omega
  | succ n ih =>
    cases ts with
    | nil => rfl
    | cons t ts =>
      rw [List.map_cons, List.sum_cons] at hd hn
      obtain ⟨hhead, htail⟩ := List.pairwise_cons.mp hapart
      rw [List.foldlM_cons]
      cases hw : P.work t m with
      | none =>
        rw [P.finish_none hw, whileLoop, turn]
        simp only [hw, Option.map_none]
        rfl
      | some r =>
        have hlight := P.lighter hw
        have hwithin := P.within hw
        have hrest := P.foldlM_finish_local d fun u (hu : u ∈ ts) k hk =>
          show k ∈ P.cellsOf ts from ⟨u, hu, hk⟩
        have hparts := P.foldlM_finish_local d hwithin
        have hdisj : Disjoint (P.cellsOf ts) (P.cells t) := by
          rw [Set.disjoint_right]
          rintro k hk ⟨u, hu, hku⟩
          exact Set.disjoint_left.mp (hhead u hu) hk hku
        have hnext : P.turn (t :: ts, m) = some (.again (ts ++ r.2, r.1)) := by
          rw [turn]
          simp only [hw, Option.map_some]
        -- the rest of the queue first, then the parts, as the queue has them
        rw [whileLoop_again hnext (n := n + 1) (Nat.succ_pos n), Nat.add_sub_cancel,
          P.finish_work hw (by omega)]
        have happart : (ts ++ r.2).Pairwise fun u v => Disjoint (P.cells u) (P.cells v) :=
          List.pairwise_append.mpr ⟨htail, P.apart hw, fun u hu v hv =>
            ((hhead u hu).mono_left (hwithin v hv)).symm⟩
        rw [ih happart (by rw [List.map_append, List.sum_append]; omega)
          (by rw [List.map_append, List.sum_append]; omega), List.foldlM_append]
        congr 1
        exact hrest.comm hparts hdisj r.1

end Splitting

end MemoryLeak.Footprint
