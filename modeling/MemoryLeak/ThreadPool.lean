import Mathlib.Data.Int.Order.Basic

/-!
# Threads and their counter

Threads that one thread creates, each with an argument and a phase, and a shared counter
that it increases for them and that each of them decreases as its last step. The counter
and the creation need not go together: what the counter is ahead of the threads at work
is the credit, which no step of a thread changes.
-/
namespace MemoryLeak.ThreadPool

variable {ι φ : Type*}

/-- The counter, and all threads that were created; one without a phase has finished. -/
structure Pool (ι φ : Type*) where
  count : ℤ
  threads : List (ι × Option φ)

namespace Pool

/-- The arguments of the threads at work. -/
def atWork (p : Pool ι φ) : List ι := (p.threads.filter fun w => w.2.isSome).map Prod.fst

def credit (p : Pool ι φ) : ℤ := p.count - p.atWork.length

def increase (p : Pool ι φ) : Pool ι φ := { p with count := p.count + 1 }

def create (p : Pool ι φ) (i : ι) (a : φ) : Pool ι φ :=
  { p with threads := p.threads ++ [(i, some a)] }

/-- A step of thread `k`: on to its next phase, or its last, which decreases the counter. -/
def step (next : φ → Option φ) (p : Pool ι φ) (k : ℕ) : Option (Pool ι φ) :=
  match p.threads[k]? with
  | some (i, some a) =>
    match next a with
    | some b => some { p with threads := p.threads.set k (i, some b) }
    | none => some ⟨p.count - 1, p.threads.set k (i, none)⟩
  | _ => none

@[simp] theorem atWork_increase (p : Pool ι φ) : p.increase.atWork = p.atWork := rfl

@[simp] theorem atWork_create (p : Pool ι φ) (i : ι) (a : φ) :
    (p.create i a).atWork = p.atWork ++ [i] := by
  simp [atWork, create]

theorem credit_increase (p : Pool ι φ) : p.increase.credit = p.credit + 1 := by
  have hcount : p.increase.count = p.count + 1 := rfl
  unfold credit
  rw [atWork_increase, hcount]
  omega

theorem credit_create (p : Pool ι φ) (i : ι) (a : φ) : (p.create i a).credit = p.credit - 1 := by
  have hcount : (p.create i a).count = p.count := rfl
  unfold credit
  rw [atWork_create, List.length_append, List.length_singleton, hcount]
  omega

/-- A creation that may fail. -/
theorem credit_created (p : Pool ι φ) (i : ι) (a : φ) (created : Bool) :
    p.credit - 1 ≤ (if created then p.create i a else p).credit := by
  cases created with
  | false => exact Int.sub_le_self p.credit Int.one_nonneg
  | true => exact le_of_eq (credit_create p i a).symm

theorem mem_atWork_created {p : Pool ι φ} {i j : ι} {a : φ} {created : Bool}
    (h : j ∈ (if created then p.create i a else p).atWork) : j ∈ p.atWork ∨ j = i := by
  cases created with
  | false => exact Or.inl h
  | true =>
    rw [if_pos rfl, atWork_create] at h
    exact (List.mem_append.mp h).imp_right List.mem_singleton.mp

/-- The threads at work around one of them, and when its phase is another. -/
theorem atWork_set {p : Pool ι φ} {k : ℕ} {i : ι} {a : φ}
    (hget : p.threads[k]? = some (i, some a)) : ∃ l r, p.atWork = l ++ i :: r ∧
      (∀ c b, (Pool.mk c (p.threads.set k (i, some b))).atWork = l ++ i :: r) ∧
      ∀ c, (Pool.mk c (p.threads.set k (i, none))).atWork = l ++ r := by
  obtain ⟨hk, hka⟩ := List.getElem?_eq_some_iff.mp hget
  have hset : ∀ w, p.threads.set k w = p.threads.take k ++ w :: p.threads.drop (k + 1) := fun w =>
    List.set_eq_take_append_cons_drop.trans (if_pos hk)
  have hself : p.threads.set k (i, some a) = p.threads := by
    rw [← hka]
    exact List.set_getElem_self hk
  have hon : ∀ c b, (Pool.mk c (p.threads.set k (i, some b))).atWork =
      ((p.threads.take k).filter fun w => w.2.isSome).map Prod.fst ++
        i :: ((p.threads.drop (k + 1)).filter fun w => w.2.isSome).map Prod.fst := by
    intro c b
    rw [atWork, hset]
    simp
  refine ⟨_, _, ?_, hon, ?_⟩
  · have hself' := hon p.count a
    rwa [hself] at hself'
  · intro c
    rw [atWork, hset]
    simp

/-- A step of a thread: those at work stay at work but for the one that finishes, and the
credit is as it was. -/
theorem step_some {next : φ → Option φ} {p p' : Pool ι φ} {k : ℕ} (h : p.step next k = some p') :
    p'.atWork.Sublist p.atWork ∧ p'.credit = p.credit := by
  unfold step at h
  split at h
  · rename_i i a hget
    obtain ⟨l, r, hatWork, hon, hend⟩ := atWork_set hget
    cases hnext : next a with
    | some b =>
      rw [hnext] at h
      cases h
      refine ⟨?_, ?_⟩
      · have heq := (hon p.count b).trans hatWork.symm
        exact heq ▸ List.Sublist.refl _
      · unfold credit
        rw [hon, hatWork]
    | none =>
      rw [hnext] at h
      cases h
      refine ⟨?_, ?_⟩
      · rw [hend, hatWork]
        exact List.Sublist.append_left (List.sublist_cons_self i r) l
      · unfold credit
        rw [hend, hatWork, List.length_append, List.length_append, List.length_cons]
        dsimp only
        omega
  · cases h

/-- Who finds the counter at zero, with no thread uncounted, finds no thread at work. -/
theorem atWork_eq_nil {p : Pool ι φ} (hcredit : 0 ≤ p.credit) (hzero : p.count = 0) :
    p.atWork = [] := by
  unfold credit at hcredit
  exact List.length_eq_zero_iff.mp (by omega)

theorem atWork_eq_nil_iff {p : Pool ι φ} : p.atWork = [] ↔ ∀ w ∈ p.threads, w.2 = none := by
  simp [atWork, Option.isSome_iff_ne_none]

end Pool

/-! ### The wait loop -/

/-- Where a thread is in `while(1) { get the counter; if it is zero, break; sleep; }`. -/
inductive Wait where
  | get
  | test (count : ℤ)
  | sleep

/-- A step of the loop, where the counter is `shared`; `none` when it is left. -/
def Wait.step (shared : ℤ) : Wait → Option Wait
  | .get => some (.test shared)
  | .test count => if count = 0 then none else some .sleep
  | .sleep => some .get

/-- What the loop knows: no thread is uncounted, and when it has read zero none is at work. -/
def Wait.Knows (p : Pool ι φ) (w : Wait) : Prop := 0 ≤ p.credit ∧ (w = .test 0 → p.atWork = [])

theorem Wait.Knows.step {p : Pool ι φ} {w w' : Wait} (h : w.Knows p)
    (hw : w.step p.count = some w') : w'.Knows p := by
  refine ⟨h.1, fun heq => ?_⟩
  subst heq
  cases w with
  | get => exact Pool.atWork_eq_nil h.1 (Wait.test.inj (Option.some.inj hw))
  | test count =>
    change (if count = 0 then none else some Wait.sleep) = _ at hw
    split_ifs at hw
    cases hw
  | sleep => cases hw

theorem Wait.Knows.left {p : Pool ι φ} {w : Wait} (h : w.Knows p)
    (hw : w.step p.count = none) : p.atWork = [] := by
  cases w with
  | get => cases hw
  | test count =>
    change (if count = 0 then none else some Wait.sleep) = _ at hw
    split_ifs at hw with hzero
    exact h.2 (congrArg Wait.test hzero)
  | sleep => cases hw

/-- A step of a thread meanwhile. -/
theorem Wait.Knows.thread {next : φ → Option φ} {p p' : Pool ι φ} {k : ℕ} {w : Wait}
    (h : w.Knows p) (hp : p.step next k = some p') : w.Knows p' := by
  obtain ⟨hsub, hcredit⟩ := Pool.step_some hp
  refine ⟨hcredit ▸ h.1, fun hw => ?_⟩
  have hnil := h.2 hw
  rw [hnil] at hsub
  exact List.sublist_nil.mp hsub

end MemoryLeak.ThreadPool
