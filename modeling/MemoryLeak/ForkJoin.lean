import MemoryLeak.Runs
import Mathlib.Data.Set.Lattice
import Mathlib.Logic.Function.Basic
import Mathlib.Logic.Hydra
import Mathlib.Order.CompletePartialOrder
import Mathlib.Tactic.Abel

/-!
# Threads on parts of a memory

A program reads and writes the cells of a memory, starts threads that do the same, and waits for
them. If each thread keeps to cells that neither the other threads nor the program use before it
has waited, then whatever turns they take, the memory in the end is the one that is left when
each thread is run to its end where it is started.
-/
namespace MemoryLeak.ForkJoin
open MemoryLeak.Runs

variable {ι β : Type*} {α γ : Type}

/-- What a thread does, one access to the memory after another. -/
inductive Proc (ι β : Type*) (α : Type) where
  | ret (a : α)
  /-- Outside the defined behaviour. -/
  | fault
  | read (i : ι) (next : β → Proc ι β α)
  | write (i : ι) (v : β) (next : Proc ι β α)

/-- What the program does. -/
inductive Main (ι β : Type*) where
  | done
  | fault
  | read (i : ι) (next : β → Main ι β)
  | write (i : ι) (v : β) (next : Main ι β)
  /-- A thread is started. -/
  | fork (child : Proc ι β Unit) (next : Main ι β)
  /-- All threads that were started are waited for. -/
  | join (next : Main ι β)

def Proc.bind : Proc ι β α → (α → Proc ι β γ) → Proc ι β γ
  | .ret a, f => f a
  | .fault, _ => .fault
  | .read i next, f => .read i fun v => (next v).bind f
  | .write i v next, f => .write i v (next.bind f)

instance : Monad (Proc ι β) where
  pure := .ret
  bind := Proc.bind

/-- A part of the program that starts no threads. -/
def Main.call : Proc ι β α → (α → Main ι β) → Main ι β
  | .ret a, k => k a
  | .fault, _ => .fault
  | .read i next, k => .read i fun v => call (next v) k
  | .write i v next, k => .write i v (call next k)

/-! ### Pre- and postconditions -/

section Conditions

variable [DecidableEq ι] {S T U : Set ι} {m : ι → β} {p : Proc ι β α}
  {Q Q' : (ι → β) → α → Prop}

/-- The thread comes to an end where `Q` holds, and touches cells of `S` only. -/
def Proc.wp (S : Set ι) : Proc ι β α → (ι → β) → ((ι → β) → α → Prop) → Prop
  | .ret a, m, Q => Q m a
  | .fault, _, _ => False
  | .read i next, m, Q => i ∈ S ∧ (next (m i)).wp S m Q
  | .write i v next, m, Q => i ∈ S ∧ next.wp S (Function.update m i v) Q

/-- The same of the program when each thread is run where it is started: a thread has cells of
its own, and those of the threads not waited for, `U`, are not touched. -/
def Main.wp : Main ι β → Set ι → (ι → β) → ((ι → β) → Prop) → Prop
  | .done, U, m, Q => U = ∅ ∧ Q m
  | .fault, _, _, _ => False
  | .read i next, U, m, Q => i ∉ U ∧ (next (m i)).wp U m Q
  | .write i v next, U, m, Q => i ∉ U ∧ next.wp U (Function.update m i v) Q
  | .fork child next, U, m, Q =>
    ∃ S, Disjoint S U ∧ child.wp S m fun m' _ => next.wp (U ∪ S) m' Q
  | .join next, _, m, Q => next.wp ∅ m Q

theorem Proc.wp_mono (hQ : ∀ m' a, Q m' a → Q' m' a) (h : p.wp S m Q) : p.wp S m Q' := by
  induction p generalizing m with
  | ret a => exact hQ m a h
  | fault => exact h
  | read i next ih => exact ⟨h.1, ih (m i) h.2⟩
  | write i v next ih => exact ⟨h.1, ih h.2⟩

theorem Proc.wp_subset (hST : S ⊆ T) (h : p.wp S m Q) : p.wp T m Q := by
  induction p generalizing m with
  | ret a => exact h
  | fault => exact h
  | read i next ih => exact ⟨hST h.1, ih (m i) h.2⟩
  | write i v next ih => exact ⟨hST h.1, ih h.2⟩

@[simp] theorem Proc.wp_pure (a : α) : (pure a : Proc ι β α).wp S m Q ↔ Q m a := Iff.rfl

@[simp] theorem Proc.wp_bind (f : α → Proc ι β γ) {R : (ι → β) → γ → Prop} :
    (p >>= f).wp S m R ↔ p.wp S m fun m' a => (f a).wp S m' R := by
  change (p.bind f).wp S m R ↔ _
  induction p generalizing m with
  | ret a => exact Iff.rfl
  | fault => exact Iff.rfl
  | read i next ih => exact and_congr_right fun _ => ih (m i)
  | write i v next ih => exact and_congr_right fun _ => ih

/-- Cells outside `S` keep their values. -/
theorem Proc.wp_frame (h : p.wp S m Q) :
    p.wp S m fun m' a => Q m' a ∧ ∀ i ∉ S, m' i = m i := by
  induction p generalizing m with
  | ret a => exact ⟨h, fun _ _ => rfl⟩
  | fault => exact h
  | read i next ih => exact ⟨h.1, ih (m i) h.2⟩
  | write i v next ih =>
    refine ⟨h.1, wp_mono (fun m' a hm' => ⟨hm'.1, fun j hj => ?_⟩) (ih h.2)⟩
    rw [hm'.2 j hj, Function.update_of_ne (ne_of_mem_of_not_mem h.1 hj).symm]

/-- A change of another cell may as well be made behind the thread. -/
theorem Proc.wp_update {i : ι} (hi : i ∉ S) {v : β}
    (h : p.wp S m fun m' a => Q (Function.update m' i v) a) :
    p.wp S (Function.update m i v) Q := by
  induction p generalizing m with
  | ret a => exact h
  | fault => exact h
  | read j next ih =>
    refine ⟨h.1, ?_⟩
    rw [Function.update_of_ne (ne_of_mem_of_not_mem h.1 hi)]
    exact ih (m j) h.2
  | write j w next ih =>
    refine ⟨h.1, ?_⟩
    rw [Function.update_comm (ne_of_mem_of_not_mem h.1 hi).symm]
    exact ih h.2

theorem Proc.exists_of_wp (h : p.wp S m Q) : ∃ m' a, Q m' a := by
  induction p generalizing m with
  | ret a => exact ⟨m, a, h⟩
  | fault => exact h.elim
  | read i next ih => exact ih (m i) h.2
  | write i v next ih => exact ih h.2

theorem Proc.exists_of_wp_empty (h : p.wp ∅ m Q) : ∃ a, Q m a := by
  cases p with
  | ret a => exact ⟨a, h⟩
  | fault => exact h.elim
  | read i next => exact h.1.elim
  | write i v next => exact h.1.elim

/-- A loop over a list, with an invariant about what has been done. -/
theorem Proc.wp_forM {τ : Type*} {l : List τ} {f : τ → Proc ι β Unit}
    (I : List τ → (ι → β) → Prop)
    (hstep : ∀ as t bs m, l = as ++ t :: bs → I as m → (f t).wp S m fun m' _ => I (as ++ [t]) m')
    (hm : I [] m) : (forM l f).wp S m fun m' _ => I l m' := by
  suffices h : ∀ as bs m, l = as ++ bs → I as m → (forM bs f).wp S m fun m' _ => I l m' from
    h [] l m rfl hm
  intro as bs
  induction bs generalizing as with
  | nil =>
    intro m hl hI
    rw [List.append_nil] at hl
    exact hl ▸ hI
  | cons t bs ih =>
    intro m hl hI
    rw [List.forM_cons, Proc.wp_bind]
    refine wp_mono (fun m' _ hm' => ih (as ++ [t]) m' ?_ hm') (hstep as t bs m hl hI)
    rw [hl, List.append_assoc, List.singleton_append]

/-- With less to keep away from. -/
theorem Main.wp_anti {Q : (ι → β) → Prop} {main : Main ι β} (hUT : U ⊆ T) (h : main.wp T m Q) :
    main.wp U m Q := by
  induction main generalizing U T m with
  | done => exact ⟨Set.subset_eq_empty hUT h.1, h.2⟩
  | fault => exact h
  | read i next ih => exact ⟨fun hi => h.1 (hUT hi), ih (m i) hUT h.2⟩
  | write i v next ih => exact ⟨fun hi => h.1 (hUT hi), ih hUT h.2⟩
  | fork child next ih =>
    obtain ⟨S, hS, hchild⟩ := h
    exact ⟨S, hS.mono_right hUT,
      Proc.wp_mono (fun _ _ => ih (Set.union_subset_union_left S hUT)) hchild⟩
  | join next ih => exact h

theorem Main.wp_call {Q : (ι → β) → Prop} {k : α → Main ι β} :
    (Main.call p k).wp U m Q ↔ p.wp Uᶜ m fun m' a => (k a).wp U m' Q := by
  induction p generalizing m with
  | ret a => exact Iff.rfl
  | fault => exact Iff.rfl
  | read i next ih => exact and_congr_right fun _ => ih (m i)
  | write i v next ih => exact and_congr_right fun _ => ih

end Conditions

/-! ### Runs -/

/-- The program and its threads in the middle of their work. -/
structure Config (ι β : Type*) where
  main : Main ι β
  mem : ι → β
  threads : List (Proc ι β Unit)
  /-- The threads that were started and have not come to their end. -/
  count : ℕ

def Config.start (main : Main ι β) (m : ι → β) : Config ι β := ⟨main, m, [], 0⟩

/-- Who takes the next turn. -/
inductive Event where
  | main
  | thread (k : ℕ)

/-- The counter is raised before a thread is started, and is lowered as its last act. -/
def step [DecidableEq ι] (c : Config ι β) : Event → Option (Config ι β)
  | .main =>
    match c.main with
    | .done => none
    | .fault => none
    | .read i next => some { c with main := next (c.mem i) }
    | .write i v next => some { c with main := next, mem := Function.update c.mem i v }
    | .fork child next =>
      some { c with main := next, threads := c.threads ++ [child], count := c.count + 1 }
    | .join next => if c.count = 0 then some { c with main := next } else none
  | .thread k =>
    match c.threads[k]? with
    | none => none
    | some .fault => none
    | some (.ret _) => some { c with threads := c.threads.eraseIdx k, count := c.count - 1 }
    | some (.read i next) => some { c with threads := c.threads.set k (next (c.mem i)) }
    | some (.write i v next) =>
      some { c with threads := c.threads.set k next, mem := Function.update c.mem i v }

/-- The program that would start the threads. -/
def forks (ts : List (Proc ι β Unit)) (main : Main ι β) : Main ι β := ts.foldr .fork main

section Runs

variable [DecidableEq ι] {Q : (ι → β) → Prop} {U : Set ι} {m : ι → β}

/-- What is left to do meets the condition, thread by thread. -/
structure Sound (Q : (ι → β) → Prop) (c : Config ι β) : Prop where
  count : c.count = c.threads.length
  rest : (forks c.threads c.main).wp ∅ c.mem Q

/-- A read behind threads that are still at work finds what it would find after them. -/
theorem forks_read {X : Main ι β} {Y : β → Main ι β} {i : ι}
    (h : ∀ U m, X.wp U m Q → i ∉ U ∧ (Y (m i)).wp U m Q) {ts : List (Proc ι β Unit)}
    (hX : (forks ts X).wp U m Q) : i ∉ U ∧ (forks ts (Y (m i))).wp U m Q := by
  induction ts generalizing U m with
  | nil => exact h U m hX
  | cons t ts ih =>
    obtain ⟨S, hS, ht⟩ := hX
    have hrest : t.wp S m fun m' _ => i ∉ U ∪ S ∧ (forks ts (Y (m i))).wp (U ∪ S) m' Q := by
      refine Proc.wp_mono (fun m' _ hm' => ?_) (Proc.wp_frame ht)
      obtain ⟨hi, hY⟩ := ih hm'.1
      rw [hm'.2 i fun hiS => hi (Or.inr hiS)] at hY
      exact ⟨hi, hY⟩
    obtain ⟨_, _, hi, -⟩ := Proc.exists_of_wp hrest
    exact ⟨fun hiU => hi (Or.inl hiU), S, hS, Proc.wp_mono (fun _ _ hm' => hm'.2) hrest⟩

/-- A write may be made before them. -/
theorem forks_write {X Y : Main ι β} {i : ι} {v : β}
    (h : ∀ U m, X.wp U m Q → i ∉ U ∧ Y.wp U (Function.update m i v) Q)
    {ts : List (Proc ι β Unit)} (hX : (forks ts X).wp U m Q) :
    i ∉ U ∧ (forks ts Y).wp U (Function.update m i v) Q := by
  induction ts generalizing U m with
  | nil => exact h U m hX
  | cons t ts ih =>
    obtain ⟨S, hS, ht⟩ := hX
    have hrest := Proc.wp_mono (fun _ _ => ih) ht
    obtain ⟨_, _, hi, -⟩ := Proc.exists_of_wp hrest
    exact ⟨fun hiU => hi (Or.inl hiU), S, hS, Proc.wp_update (fun hiS => hi (Or.inr hiS))
      (Proc.wp_mono (fun _ _ hm' => hm'.2) hrest)⟩

theorem forks_mono {X Y : Main ι β} (h : ∀ U m, X.wp U m Q → Y.wp U m Q)
    {ts : List (Proc ι β Unit)} (hX : (forks ts X).wp U m Q) : (forks ts Y).wp U m Q := by
  induction ts generalizing U m with
  | nil => exact h U m hX
  | cons t ts ih =>
    obtain ⟨S, hS, ht⟩ := hX
    exact ⟨S, hS, Proc.wp_mono (fun _ _ => ih) ht⟩

omit [DecidableEq ι] in
theorem forks_append (ts us : List (Proc ι β Unit)) (main : Main ι β) :
    forks (ts ++ us) main = forks ts (forks us main) := List.foldr_append

/-- The threads before and behind one of them. -/
theorem split_at {τ : Type*} {l : List τ} {k : ℕ} {t : τ} (h : l[k]? = some t) :
    ∃ as bs, l = as ++ t :: bs ∧ l.eraseIdx k = as ++ bs ∧ ∀ u, l.set k u = as ++ u :: bs := by
  obtain ⟨hk, rfl⟩ := List.getElem?_eq_some_iff.mp h
  refine ⟨l.take k, l.drop (k + 1), ?_, List.eraseIdx_eq_take_drop_succ l k, fun u => ?_⟩
  · rw [← List.drop_eq_getElem_cons hk, List.take_append_drop]
  · rw [List.set_eq_take_append_cons_drop, if_pos hk]

theorem Sound.step {c c' : Config ι β} {e : Event} (h : Sound Q c)
    (hs : ForkJoin.step c e = some c') : Sound Q c' := by
  obtain ⟨main, mem, ts, count⟩ := c
  obtain ⟨hcount, hrest⟩ := h
  dsimp only at hcount hrest
  cases e with
  | main =>
    cases main with
    | done => cases hs
    | fault => cases hs
    | read i next =>
      cases hs
      exact ⟨hcount, (forks_read (X := .read i next) (fun _ _ hX => hX) hrest).2⟩
    | write i v next =>
      cases hs
      exact ⟨hcount, (forks_write (X := .write i v next) (fun _ _ hX => hX) hrest).2⟩
    | fork child next =>
      cases hs
      refine ⟨by rw [List.length_append, hcount]; rfl, ?_⟩
      rw [forks_append]
      exact hrest
    | join next =>
      obtain ⟨hzero, hs⟩ := Option.ite_none_right_eq_some.mp hs
      dsimp only at hzero
      cases hs
      obtain rfl : ts = [] := List.eq_nil_of_length_eq_zero (by omega)
      exact ⟨hcount, hrest⟩
  | thread k =>
    cases ht : ts[k]? with
    | none => simp only [ForkJoin.step, ht, reduceCtorEq] at hs
    | some t =>
      obtain ⟨as, bs, rfl, herase, hset⟩ := split_at ht
      rw [forks_append] at hrest
      cases t with
      | ret a =>
        simp only [ForkJoin.step, ht, Option.some.injEq] at hs
        subst hs
        refine ⟨by simp only [herase, hcount, List.length_append, List.length_cons]; omega, ?_⟩
        dsimp only
        rw [herase, forks_append]
        refine forks_mono (fun U m hX => ?_) hrest
        obtain ⟨S, -, hX⟩ := hX
        exact Main.wp_anti Set.subset_union_left hX
      | fault => simp only [ForkJoin.step, ht, reduceCtorEq] at hs
      | read i next =>
        simp only [ForkJoin.step, ht, hset, Option.some.injEq] at hs
        subst hs
        refine ⟨by simp only [hcount, List.length_append, List.length_cons], ?_⟩
        dsimp only
        rw [forks_append]
        refine (forks_read (Y := fun v => forks (next v :: bs) main) (fun U m hX => ?_) hrest).2
        obtain ⟨S, hS, hi, hnext⟩ := hX
        exact ⟨Set.disjoint_left.mp hS hi, S, hS, hnext⟩
      | write i v next =>
        simp only [ForkJoin.step, ht, hset, Option.some.injEq] at hs
        subst hs
        refine ⟨by simp only [hcount, List.length_append, List.length_cons], ?_⟩
        dsimp only
        rw [forks_append]
        refine (forks_write (Y := forks (next :: bs) main) (fun U m hX => ?_) hrest).2
        obtain ⟨S, hS, hi, hnext⟩ := hX
        exact ⟨Set.disjoint_left.mp hS hi, S, hS, hnext⟩

/-- Whatever turns are taken, what is left meets the condition. -/
theorem sound_run {main : Main ι β} (h : main.wp ∅ m Q) {es : List Event} {c : Config ι β}
    (hr : run ForkJoin.step (.start main m) es = some c) : Sound Q c := by
  have hstart : Sound Q (.start main m) := ⟨rfl, h⟩
  exact run_invariant (fun _ _ _ hs h => hs.step h) hstart hr

theorem forks_done_empty {ts : List (Proc ι β Unit)} (h : (forks ts .done).wp U m Q) : U = ∅ := by
  induction ts generalizing U m with
  | nil => exact h.1
  | cons t ts ih =>
    obtain ⟨S, -, ht⟩ := h
    obtain ⟨m', _, hm'⟩ := Proc.exists_of_wp ht
    exact (Set.union_empty_iff.mp (ih hm')).1

/-- Threads that were not waited for have no cells. -/
theorem post_of_forks_done {ts : List (Proc ι β Unit)} (h : (forks ts .done).wp U m Q) : Q m := by
  induction ts generalizing U with
  | nil => exact h.2
  | cons t ts ih =>
    obtain ⟨S, -, ht⟩ := h
    obtain ⟨m', _, hm'⟩ := Proc.exists_of_wp ht
    obtain ⟨-, rfl⟩ := Set.union_empty_iff.mp (forks_done_empty hm')
    obtain ⟨_, hm⟩ := Proc.exists_of_wp_empty ht
    exact ih hm

/-- Where the program has ended, the condition holds. -/
theorem Sound.post {c : Config ι β} (h : Sound Q c) (hdone : c.main = .done) : Q c.mem := by
  obtain ⟨-, hrest⟩ := h
  rw [hdone] at hrest
  exact post_of_forks_done hrest

/-- Until then somebody can take a turn. -/
theorem Sound.progress {c : Config ι β} (h : Sound Q c) (hdone : c.main ≠ .done) :
    ∃ e c', ForkJoin.step c e = some c' := by
  obtain ⟨main, mem, ts, count⟩ := c
  obtain ⟨hcount, hrest⟩ := h
  dsimp only at hcount hrest hdone
  cases ts with
  | nil =>
    refine ⟨.main, ?_⟩
    cases main with
    | done => exact absurd rfl hdone
    | fault => exact hrest.elim
    | read i next => exact ⟨_, rfl⟩
    | write i v next => exact ⟨_, rfl⟩
    | fork child next => exact ⟨_, rfl⟩
    | join next => exact ⟨_, if_pos hcount⟩
  | cons t ts =>
    obtain ⟨S, -, ht⟩ := hrest
    refine ⟨.thread 0, ?_⟩
    cases t with
    | ret a => exact ⟨_, rfl⟩
    | fault => exact ht.elim
    | read i next => exact ⟨_, rfl⟩
    | write i v next => exact ⟨_, rfl⟩

/-- Outside the defined behaviour. -/
def Config.Faulty (c : Config ι β) : Prop := c.main = .fault ∨ .fault ∈ c.threads

theorem Sound.not_faulty {c : Config ι β} (h : Sound Q c) : ¬ c.Faulty := by
  obtain ⟨-, hrest⟩ := h
  suffices hts : ∀ ts U m, (forks ts c.main).wp U m Q → ¬ (c.main = .fault ∨ .fault ∈ ts) from
    hts _ _ _ hrest
  intro ts
  induction ts with
  | nil =>
    rintro U m h (hmain | hmem)
    · rw [hmain] at h
      exact h
    · cases hmem
  | cons t ts ih =>
    rintro U m ⟨S, -, ht⟩ hfault
    obtain ⟨m', _, hm'⟩ := Proc.exists_of_wp ht
    rcases hfault with hmain | hmem
    · exact ih _ _ hm' (Or.inl hmain)
    · rcases List.mem_cons.mp hmem with rfl | hmem
      · exact ht
      · exact ih _ _ hm' (Or.inr hmem)

end Runs

/-! ### Termination -/

/-- What is left of the program or of a thread after a turn. -/
inductive Below : Main ι β ⊕ Proc ι β Unit → Main ι β ⊕ Proc ι β Unit → Prop where
  | mainRead (i : ι) (next : β → Main ι β) (v : β) : Below (.inl (next v)) (.inl (.read i next))
  | mainWrite (i : ι) (v : β) (next : Main ι β) : Below (.inl next) (.inl (.write i v next))
  | forkNext (child : Proc ι β Unit) (next : Main ι β) : Below (.inl next) (.inl (.fork child next))
  | forkChild (child : Proc ι β Unit) (next : Main ι β) :
    Below (.inr child) (.inl (.fork child next))
  | join (next : Main ι β) : Below (.inl next) (.inl (.join next))
  | read (i : ι) (next : β → Proc ι β Unit) (v : β) : Below (.inr (next v)) (.inr (.read i next))
  | write (i : ι) (v : β) (next : Proc ι β Unit) : Below (.inr next) (.inr (.write i v next))

theorem acc_proc (p : Proc ι β Unit) : Acc Below (Sum.inr p : Main ι β ⊕ Proc ι β Unit) := by
  induction p with
  | ret a => exact ⟨_, fun y h => by cases h⟩
  | fault => exact ⟨_, fun y h => by cases h⟩
  | read i next ih => exact ⟨_, fun y h => by cases h; exact ih _⟩
  | write i v next ih => exact ⟨_, fun y h => by cases h; exact ih⟩

theorem acc_main (p : Main ι β) : Acc Below (Sum.inl p : Main ι β ⊕ Proc ι β Unit) := by
  induction p with
  | done => exact ⟨_, fun y h => by cases h⟩
  | fault => exact ⟨_, fun y h => by cases h⟩
  | read i next ih => exact ⟨_, fun y h => by cases h; exact ih _⟩
  | write i v next ih => exact ⟨_, fun y h => by cases h; exact ih⟩
  | fork child next ih =>
    refine ⟨_, fun y h => ?_⟩
    cases h with
    | forkNext => exact ih
    | forkChild => exact acc_proc child
  | join next ih => exact ⟨_, fun y h => by cases h; exact ih⟩

theorem below_wellFounded : WellFounded (Below (ι := ι) (β := β)) :=
  ⟨fun x => by
    cases x with
    | inl p => exact acc_main p
    | inr p => exact acc_proc p⟩

/-- The program and the threads, in no order. -/
def Config.work (c : Config ι β) : Multiset (Main ι β ⊕ Proc ι β Unit) :=
  {.inl c.main} + Multiset.map .inr (c.threads : Multiset (Proc ι β Unit))

theorem work_split (main : Main ι β) (mem : ι → β) (as ts bs : List (Proc ι β Unit)) (count : ℕ) :
    (Config.mk main mem (as ++ (ts ++ bs)) count).work =
      Multiset.map .inr (ts : Multiset (Proc ι β Unit)) + ({.inl main} +
        (Multiset.map .inr (as : Multiset (Proc ι β Unit)) +
          Multiset.map .inr (bs : Multiset (Proc ι β Unit)))) := by
  simp only [Config.work, ← Multiset.coe_add, Multiset.map_add]
  abel

/-- A turn takes one piece of work and leaves lesser ones for it. -/
theorem step_cutExpand [DecidableEq ι] {c c' : Config ι β} {e : Event} (h : step c e = some c') :
    Relation.CutExpand Below c'.work c.work := by
  obtain ⟨main, mem, ts, count⟩ := c
  cases e with
  | main =>
    have hone : ∀ next mem count, Below (.inl next) (.inl main) →
        Relation.CutExpand Below (Config.mk next mem ts count).work
          (Config.mk main mem ts count).work := fun _ _ _ hbelow =>
      (Relation.cutExpand_add_right _).mpr (Relation.cutExpand_singleton_singleton hbelow)
    cases main with
    | done => cases h
    | fault => cases h
    | read i next =>
      cases h
      exact hone (next (mem i)) mem count (.mainRead i next (mem i))
    | write i v next =>
      cases h
      exact hone next (Function.update mem i v) count (.mainWrite i v next)
    | fork child next =>
      cases h
      have hwork : (Config.mk next mem (ts ++ [child]) (count + 1)).work =
          {.inl next, .inr child} + Multiset.map .inr (ts : Multiset (Proc ι β Unit)) := by
        simp only [Config.work, ← Multiset.coe_add, Multiset.map_add, Multiset.coe_singleton,
          Multiset.map_singleton, Multiset.insert_eq_cons, ← Multiset.singleton_add]
        abel
      dsimp only
      rw [hwork]
      exact (Relation.cutExpand_add_right _).mpr
        (Relation.cutExpand_double (.forkNext child next) (.forkChild child next))
    | join next =>
      obtain ⟨-, h⟩ := Option.ite_none_right_eq_some.mp h
      cases h
      exact hone next mem count (.join next)
  | thread k =>
    cases ht : ts[k]? with
    | none => simp only [step, ht, reduceCtorEq] at h
    | some t =>
      obtain ⟨as, bs, rfl, herase, hset⟩ := split_at ht
      have hone : ∀ (us : List (Proc ι β Unit)) mem count, Relation.CutExpand Below
          (Multiset.map .inr (us : Multiset (Proc ι β Unit))) {.inr t} →
          Relation.CutExpand Below (Config.mk main mem (as ++ (us ++ bs)) count).work
            (Config.mk main mem (as ++ ([t] ++ bs)) count).work := by
        intro us mem' count' hcut
        rw [work_split, work_split]
        exact (Relation.cutExpand_add_right _).mpr hcut
      cases t with
      | ret a =>
        simp only [step, ht, herase, Option.some.injEq] at h
        subst h
        exact hone [] mem (count - 1) Relation.cutExpand_zero
      | fault => simp only [step, ht, reduceCtorEq] at h
      | read i next =>
        simp only [step, ht, hset, Option.some.injEq] at h
        subst h
        exact hone [next (mem i)] mem count
          (Relation.cutExpand_singleton_singleton (.read i next (mem i)))
      | write i v next =>
        simp only [step, ht, hset, Option.some.injEq] at h
        subst h
        exact hone [next] (Function.update mem i v) count
          (Relation.cutExpand_singleton_singleton (.write i v next))

/-- No schedule goes on for ever. -/
theorem step_wellFounded [DecidableEq ι] :
    WellFounded fun c' c : Config ι β => ∃ e, step c e = some c' :=
  Subrelation.wf (fun ⟨_, h⟩ => step_cutExpand h)
    (InvImage.wf Config.work below_wellFounded.cutExpand)

/-- From wherever a schedule has come to, it can be brought to an end. -/
theorem Sound.finishes [DecidableEq ι] {Q : (ι → β) → Prop} {c : Config ι β} (h : Sound Q c) :
    ∃ es c', run ForkJoin.step c es = some c' ∧ c'.main = .done := by
  induction step_wellFounded.apply c with
  | intro c _ ih =>
    by_cases hdone : c.main = .done
    · exact ⟨[], c, rfl, hdone⟩
    · obtain ⟨e, c₁, hstep⟩ := h.progress hdone
      obtain ⟨es, c₂, hrun, hdone₂⟩ := ih c₁ ⟨e, hstep⟩ (h.step hstep)
      exact ⟨e :: es, c₂, by rw [run_cons, hstep]; exact hrun, hdone₂⟩

end MemoryLeak.ForkJoin
