import Mathlib.Data.List.Basic
import Mathlib.Data.List.TakeWhile

/-!
# Runs of a step function

A component is a step function on an explicit state. A partial step yields
`none` where it has no defined outcome, and a run is then defined only if each
of its steps is. Invariants of whole runs, exact conditions for them, and
refinement of one machine by another are proved here once, from a statement
about one step.
-/
namespace MemoryLeak.Runs

variable {σ τ ε ω : Type*}

section Partial

variable (step : σ → ε → Option σ)

/-- The state after a sequence of events. -/
def run : σ → List ε → Option σ
  | s, [] => some s
  | s, e :: es => (step s e).bind fun s' => run s' es

@[simp] theorem run_nil (s : σ) : run step s [] = some s := rfl

theorem run_cons (s : σ) (e : ε) (es : List ε) :
    run step s (e :: es) = (step s e).bind fun s' => run step s' es := rfl

theorem run_append (s : σ) (es es' : List ε) :
    run step s (es ++ es') = (run step s es).bind fun s' => run step s' es' := by
  induction es generalizing s with
  | nil => rfl
  | cons e es ih =>
    rw [List.cons_append, run_cons, run_cons]
    cases step s e with
    | none => rfl
    | some t => exact ih t

/-- Every state of the run is defined and satisfies `P`. -/
def Stays (P : σ → Prop) : σ → List ε → Prop
  | s, [] => P s
  | s, e :: es => P s ∧ ∃ s', step s e = some s' ∧ Stays P s' es

/-- Every event meets the condition in the state it is taken in. -/
def AllSteps (C : σ → ε → Prop) : σ → List ε → Prop
  | _, [] => True
  | s, e :: es => C s e ∧ ∀ s', step s e = some s' → AllSteps C s' es

variable {step} {P : σ → Prop} {C : σ → ε → Prop}

/-- A run is checked step by step. -/
instance AllSteps.decidable [∀ s e, Decidable (C s e)] :
    ∀ s es, Decidable (AllSteps step C s es)
  | _, [] => isTrue trivial
  | s, e :: es =>
    have : DecidablePred fun s' => AllSteps step C s' es := fun s' => AllSteps.decidable s' es
    inferInstanceAs (Decidable (C s e ∧ ∀ s' ∈ step s e, AllSteps step C s' es))

theorem allSteps_of_forall (h : ∀ s e, C s e) (s : σ) (es : List ε) : AllSteps step C s es := by
  induction es generalizing s with
  | nil => trivial
  | cons e es ih => exact ⟨h s e, fun s' _ => ih s'⟩

/-- The condition may be read off an invariant of all steps. -/
theorem allSteps_of_invariant (hstep : ∀ s e s', P s → step s e = some s' → P s')
    (h : ∀ s e, P s → C s e) {s : σ} (hs : P s) (es : List ε) : AllSteps step C s es := by
  induction es generalizing s with
  | nil => trivial
  | cons e es ih => exact ⟨h s e hs, fun s' hs' => ih (hstep s e s' hs hs')⟩

/-- Both parts of a run meet the condition. -/
theorem AllSteps.append {s : σ} {es es' : List ε} (h : AllSteps step C s (es ++ es')) :
    AllSteps step C s es ∧ ∀ s', Runs.run step s es = some s' → AllSteps step C s' es' := by
  induction es generalizing s with
  | nil =>
    refine ⟨trivial, fun s' hs' => ?_⟩
    cases hs'
    exact h
  | cons e es ih =>
    obtain ⟨hfirst, hrest⟩ := h
    refine ⟨⟨hfirst, fun t ht => (ih (hrest t ht)).1⟩, fun s' hs' => ?_⟩
    obtain ⟨t, ht, hs'⟩ := Option.bind_eq_some_iff.mp hs'
    exact (ih (hrest t ht)).2 s' hs'

/-- Runs whose steps meet the condition compose. -/
theorem AllSteps.concat {s : σ} {es es' : List ε} (h : AllSteps step C s es)
    (h' : ∀ s', Runs.run step s es = some s' → AllSteps step C s' es') :
    AllSteps step C s (es ++ es') := by
  induction es generalizing s with
  | nil => exact h' s rfl
  | cons e es ih =>
    refine ⟨h.1, fun t ht => ih (h.2 t ht) fun s' hs' => h' s' ?_⟩
    rw [run_cons, ht]
    exact hs'

/-- An invariant kept by the steps that meet the condition holds after a run whose
steps all do. -/
theorem AllSteps.invariant (hstep : ∀ s e s', P s → C s e → step s e = some s' → P s')
    {s s' : σ} {es : List ε} (hs : P s) (hC : AllSteps step C s es) (hr : run step s es = some s') :
    P s' := by
  induction es generalizing s with
  | nil => cases hr; exact hs
  | cons e es ih =>
    rw [run_cons, Option.bind_eq_some_iff] at hr
    obtain ⟨t, ht, hrest⟩ := hr
    exact ih (hstep s e t hs hC.1 ht) (hC.2 t ht) hrest

/-- The run of another machine that does the same steps, with its events read off the first's. -/
theorem AllSteps.map {ε' : Type*} {step' : σ → ε' → Option σ} {C' : σ → ε' → Prop} (f : ε → ε')
    (hstep : ∀ s e s', P s → C s e → step s e = some s' →
      P s' ∧ C' s (f e) ∧ step' s (f e) = some s')
    {s s' : σ} {es : List ε} (hs : P s) (hC : AllSteps step C s es)
    (hr : Runs.run step s es = some s') :
    AllSteps step' C' s (es.map f) ∧ Runs.run step' s (es.map f) = some s' := by
  induction es generalizing s with
  | nil => exact ⟨trivial, hr⟩
  | cons e es ih =>
    rw [run_cons, Option.bind_eq_some_iff] at hr
    obtain ⟨t, ht, hrest⟩ := hr
    obtain ⟨htP, hC', ht'⟩ := hstep s e t hs hC.1 ht
    obtain ⟨hall, hrun⟩ := ih htP (hC.2 t ht) hrest
    refine ⟨⟨hC', fun u hu => ?_⟩, ?_⟩
    · cases ht'.symm.trans hu
      exact hall
    · rw [List.map_cons, run_cons, ht']
      exact hrun

/-- A run whose steps all meet a condition under which steps are defined and keep `P`. -/
theorem AllSteps.run (hstep : ∀ s e, P s → C s e → ∃ s', step s e = some s' ∧ P s') {s : σ}
    {es : List ε} (hs : P s) (hC : AllSteps step C s es) :
    ∃ s', Runs.run step s es = some s' ∧ P s' := by
  induction es generalizing s with
  | nil => exact ⟨s, rfl, hs⟩
  | cons e es ih =>
    obtain ⟨t, ht, htP⟩ := hstep s e hs hC.1
    obtain ⟨s', hr, hp⟩ := ih htP (hC.2 t ht)
    exact ⟨s', by rw [run_cons, ht]; exact hr, hp⟩

/-- An invariant kept by the events of some kind holds after a run of such events. -/
theorem run_invariant_of_mem {E : ε → Prop}
    (hstep : ∀ s e s', P s → E e → step s e = some s' → P s') {s s' : σ} {es : List ε} (hs : P s)
    (hE : ∀ e ∈ es, E e) (hr : Runs.run step s es = some s') : P s' := by
  induction es generalizing s with
  | nil => cases hr; exact hs
  | cons e es ih =>
    rw [run_cons, Option.bind_eq_some_iff] at hr
    obtain ⟨t, ht, hrest⟩ := hr
    have hfirst : P t := hstep s e t hs (hE e List.mem_cons_self) ht
    exact ih hfirst (fun e he => hE e (List.mem_cons_of_mem _ he)) hrest

theorem run_invariant (hstep : ∀ s e s', P s → step s e = some s' → P s') {s s' : σ}
    {es : List ε} (hs : P s) (hr : Runs.run step s es = some s') : P s' := by
  have hall : AllSteps step (fun _ _ => True) s es := allSteps_of_forall (fun _ _ => trivial) s es
  exact hall.invariant (fun s e s' hs _ h => hstep s e s' hs h) hs hr

/-- A run that stays in `P` is defined and ends in `P`. -/
theorem Stays.run {s : σ} {es : List ε} (h : Stays step P s es) :
    ∃ s', run step s es = some s' ∧ P s' := by
  induction es generalizing s with
  | nil => exact ⟨s, rfl, h⟩
  | cons e es ih =>
    obtain ⟨_, t, ht, hrest⟩ := h
    obtain ⟨s', hr, hp⟩ := ih hrest
    exact ⟨s', by rw [run_cons, ht]; exact hr, hp⟩

/-- If the condition is exactly what one step needs to stay in the invariant,
then a run stays in it exactly when all its steps meet the condition. -/
theorem stays_iff_allSteps
    (hstep : ∀ s e, P s → (C s e ↔ ∃ s', step s e = some s' ∧ P s'))
    {s : σ} (hs : P s) (es : List ε) : Stays step P s es ↔ AllSteps step C s es := by
  induction es generalizing s with
  | nil => exact ⟨fun _ => trivial, fun _ => hs⟩
  | cons e es ih =>
    constructor
    · rintro ⟨_, t, ht, hrest⟩
      have htP : P t := by cases es with
        | nil => exact hrest
        | cons _ _ => exact hrest.1
      refine ⟨(hstep s e hs).mpr ⟨t, ht, htP⟩, ?_⟩
      intro t' ht'
      cases ht.symm.trans ht'
      exact (ih htP).mp hrest
    · rintro ⟨hc, hrest⟩
      obtain ⟨t, ht, htP⟩ := (hstep s e hs).mp hc
      exact ⟨hs, t, ht, (ih htP).mpr (hrest t ht)⟩

end Partial

section Total

variable (step : σ → ε → σ × ω)

/-- The final state and the outputs of a machine whose steps are total. -/
def exec : σ → List ε → σ × List ω
  | s, [] => (s, [])
  | s, e :: es => ((exec (step s e).1 es).1, (step s e).2 :: (exec (step s e).1 es).2)

@[simp] theorem exec_nil (s : σ) : exec step s [] = (s, []) := rfl

theorem exec_cons (s : σ) (e : ε) (es : List ε) :
    exec step s (e :: es) =
      ((exec step (step s e).1 es).1, (step s e).2 :: (exec step (step s e).1 es).2) := rfl

theorem exec_append (s : σ) (es es' : List ε) :
    (exec step s (es ++ es')).1 = (exec step (exec step s es).1 es').1 := by
  induction es generalizing s with
  | nil => rfl
  | cons e es ih => exact ih (step s e).1

variable {step}

/-- An invariant kept by each admitted event holds after every run of them. -/
theorem exec_invariant {P : σ → Prop} {V : ε → Prop}
    (hstep : ∀ s e, P s → V e → P (step s e).1)
    {s : σ} {es : List ε} (hs : P s) (hv : ∀ e ∈ es, V e) : P (exec step s es).1 := by
  induction es generalizing s with
  | nil => exact hs
  | cons e es ih =>
    rw [exec_cons]
    exact ih (hstep s e hs (hv e (by simp))) (fun e' he' => hv e' (by simp [he']))

/-- Simulation: a relation that every admitted event preserves, with equal
outputs, relates the ends of any two runs on the same events. -/
theorem exec_refines {spec : τ → ε → τ × ω} {R : σ → τ → Prop} {V : ε → Prop}
    (hstep : ∀ s t e, R s t → V e →
      R (step s e).1 (spec t e).1 ∧ (step s e).2 = (spec t e).2)
    {s : σ} {t : τ} {es : List ε} (hs : R s t) (hv : ∀ e ∈ es, V e) :
    R (exec step s es).1 (exec spec t es).1 ∧ (exec step s es).2 = (exec spec t es).2 := by
  induction es generalizing s t with
  | nil => exact ⟨hs, rfl⟩
  | cons e es ih =>
    obtain ⟨hR, hout⟩ := hstep s t e hs (hv e (by simp))
    obtain ⟨hR', hout'⟩ := ih hR (fun e' he' => hv e' (by simp [he']))
    simp only [exec_cons]
    exact ⟨hR', by rw [hout, hout']⟩

variable (step) in
/-- Every event meets the condition in the state it is taken in. -/
def Along (C : σ → ε → Prop) : σ → List ε → Prop
  | _, [] => True
  | s, e :: es => C s e ∧ Along C (step s e).1 es

theorem along_of_forall {C : σ → ε → Prop} {V : ε → Prop} (h : ∀ s e, V e → C s e) (s : σ)
    {es : List ε} (hv : ∀ e ∈ es, V e) : Along step C s es := by
  induction es generalizing s with
  | nil => trivial
  | cons e es ih =>
    exact ⟨h s e (hv e (by simp)), ih (step s e).1 fun e' he' => hv e' (by simp [he'])⟩

theorem along_of_getElem? {C : σ → ε → Prop} {s : σ} {es : List ε}
    (h : ∀ k e, es[k]? = some e → C (exec step s (es.take k)).1 e) : Along step C s es := by
  induction es generalizing s with
  | nil => trivial
  | cons e es ih => exact ⟨h 0 e rfl, ih fun k e' he' => h (k + 1) e' he'⟩

/-- The output of an event is the one of its step from the state reached before it. -/
theorem exec_getElem? (s : σ) (es : List ε) (k : ℕ) :
    (exec step s es).2[k]? = (es[k]?).map fun e => (step (exec step s (es.take k)).1 e).2 := by
  induction es generalizing s k with
  | nil => simp
  | cons e es ih =>
    cases k with
    | zero => simp [exec_cons]
    | succ k => simpa [exec_cons] using ih (step s e).1 k

end Total

section Loops

/-! ### Loops left by a break -/

variable {α : Type*}

/-- How one turn of a loop ends: outside the defined behaviour, with a `break`,
or going on after an output. -/
inductive Flow (σ ω : Type*) where
  | fault
  | stop (s : σ)
  | next (s : σ) (out : ω)

variable (body : α × ℕ → σ → Flow σ ω)

/-- A loop over a list, each element with its index, and its outputs. -/
def loop : List (α × ℕ) → σ → Option (σ × List ω)
  | [], s => some (s, [])
  | x :: rest, s =>
    match body x s with
    | .fault => none
    | .stop s' => some (s', [])
    | .next s' out => (loop rest s').map fun r => (r.1, out :: r.2)

variable (stops : α × ℕ → Prop) [DecidablePred stops]

/-- The elements handled before the first one that breaks the loop. -/
def reached (l : List (α × ℕ)) : List (α × ℕ) := l.takeWhile fun x => !decide (stops x)

/-- The element that breaks the loop and those behind it. -/
def unreached (l : List (α × ℕ)) : List (α × ℕ) := l.dropWhile fun x => !decide (stops x)

theorem reached_append_unreached (l : List (α × ℕ)) :
    reached stops l ++ unreached stops l = l := List.takeWhile_append_dropWhile

variable {stops} in
theorem not_stops_of_mem_reached {l : List (α × ℕ)} {x : α × ℕ} (hx : x ∈ reached stops l) :
    ¬ stops x := by
  simpa using List.mem_takeWhile_imp hx

variable {stops} in
theorem mem_of_mem_reached {l : List (α × ℕ)} {x : α × ℕ} (hx : x ∈ reached stops l) : x ∈ l :=
  (List.takeWhile_prefix _).subset hx

variable {body stops} {faults : α × ℕ → Prop} {I J : ℕ → σ → Prop} {R : α × ℕ → ω → Prop}

theorem reached_cons_of_stops {x : α × ℕ} (h : stops x) (rest : List (α × ℕ)) :
    reached stops (x :: rest) = [] := by simp [reached, h]

theorem reached_cons_of_not_stops {x : α × ℕ} (h : ¬ stops x) (rest : List (α × ℕ)) :
    reached stops (x :: rest) = x :: reached stops rest := by simp [reached, h]

/-- An element with no break up to it is reached. -/
theorem mem_reached {l : List (α × ℕ)} {k : ℕ} {x : α × ℕ} (hx : l[k]? = some x)
    (hl : ∀ y ∈ l.take (k + 1), ¬ stops y) : x ∈ reached stops l := by
  induction l generalizing k with
  | nil => simp at hx
  | cons y rest ih =>
    rw [reached_cons_of_not_stops (hl y (by simp))]
    cases k with
    | zero => exact List.mem_cons.mpr (Or.inl (by simpa using hx.symm))
    | succ k =>
      have hrest := ih (k := k) (by simpa using hx) fun z hz => hl z (by simp [hz])
      exact List.mem_cons_of_mem _ hrest

/-- A loop whose breaks depend on the element alone: it gives one output, as
related by `R`, for each element reached. `I n` holds of the state after `n`
outputs, `J n` when the loop has ended after them. -/
theorem loop_outputs (hIJ : ∀ n s, I n s → J n s)
    (hstop : ∀ x s n, I n s → stops x → ∃ s', body x s = .stop s' ∧ J n s')
    (hnext : ∀ x s n, I n s → ¬ stops x → ¬ faults x →
      ∃ s' out, body x s = .next s' out ∧ I (n + 1) s' ∧ R x out)
    {l : List (α × ℕ)} {s : σ} {n : ℕ} (hs : I n s) (hl : ∀ x ∈ reached stops l, ¬ faults x) :
    ∃ s' outs, loop body l s = some (s', outs) ∧ List.Forall₂ R (reached stops l) outs ∧
      J (n + outs.length) s' := by
  induction l generalizing s n with
  | nil => exact ⟨s, [], rfl, List.Forall₂.nil, hIJ n s hs⟩
  | cons x rest ih =>
    by_cases hx : stops x
    · obtain ⟨s', hbody, hJ⟩ := hstop x s n hs hx
      rw [reached_cons_of_stops hx]
      exact ⟨s', [], by simp [loop, hbody], List.Forall₂.nil, hJ⟩
    · rw [reached_cons_of_not_stops hx] at hl ⊢
      obtain ⟨s₁, out, hbody, hI, hR⟩ := hnext x s n hs hx (hl x (by simp))
      obtain ⟨s', outs, hloop, hall, hJ⟩ := ih hI (fun y hy => hl y (by simp [hy]))
      refine ⟨s', out :: outs, by simp [loop, hbody, hloop], List.Forall₂.cons hR hall, ?_⟩
      rwa [List.length_cons, ← Nat.add_assoc, Nat.add_right_comm]

/-- Each output comes from a turn on an element of the list. -/
theorem mem_loop_outputs {l : List (α × ℕ)} {s s' : σ} {outs : List ω}
    (h : loop body l s = some (s', outs)) {out : ω} (hout : out ∈ outs) :
    ∃ x ∈ l, ∃ t t', body x t = .next t' out := by
  induction l generalizing s outs with
  | nil =>
    cases h
    cases hout
  | cons x rest ih =>
    rw [loop] at h
    cases hbody : body x s with
    | fault =>
      rw [hbody] at h
      cases h
    | stop t =>
      rw [hbody] at h
      cases h
      cases hout
    | next t out' =>
      simp only [hbody, Option.map_eq_some_iff, Prod.mk.injEq] at h
      obtain ⟨⟨s₁, outs₁⟩, hrest, rfl, rfl⟩ := h
      rcases List.mem_cons.mp hout with rfl | hin
      · exact ⟨x, List.mem_cons_self, s, t, hbody⟩
      · obtain ⟨y, hy, hturn⟩ := ih hrest hin
        exact ⟨y, List.mem_cons_of_mem x hy, hturn⟩

/-- A loop that reaches a faulty element has no outcome. -/
theorem loop_eq_none
    (hfault : ∀ x s n, I n s → ¬ stops x → faults x → body x s = .fault)
    (hnext : ∀ x s n, I n s → ¬ stops x → ¬ faults x →
      ∃ s' out, body x s = .next s' out ∧ I (n + 1) s' ∧ R x out)
    {l : List (α × ℕ)} {s : σ} {n : ℕ} (hs : I n s) (hl : ∃ x ∈ reached stops l, faults x) :
    loop body l s = none := by
  induction l generalizing s n with
  | nil => simp [reached] at hl
  | cons x rest ih =>
    by_cases hx : stops x
    · simp [reached_cons_of_stops hx] at hl
    · by_cases hf : faults x
      · simp [loop, hfault x s n hs hx hf]
      · obtain ⟨s₁, out, hbody, hI, _⟩ := hnext x s n hs hx hf
        have hrest : ∃ y ∈ reached stops rest, faults y := by
          simpa [reached_cons_of_not_stops hx, hf] using hl
        simp [loop, hbody, ih hI hrest]

/-! ### Related lists -/

theorem forall₂_mem_left {β : Type*} {Q : α → β → Prop} {l : List α} {l' : List β}
    (h : List.Forall₂ Q l l') {a : α} (ha : a ∈ l) : ∃ b ∈ l', Q a b := by
  induction h with
  | nil => simp at ha
  | cons hab _ ih =>
    rcases List.mem_cons.mp ha with rfl | ha
    · exact ⟨_, by simp, hab⟩
    · obtain ⟨b, hb, hq⟩ := ih ha
      exact ⟨b, by simp [hb], hq⟩

theorem forall₂_mem_right {β : Type*} {Q : α → β → Prop} {l : List α} {l' : List β}
    (h : List.Forall₂ Q l l') {b : β} (hb : b ∈ l') : ∃ a ∈ l, Q a b := by
  induction h with
  | nil => simp at hb
  | cons hab _ ih =>
    rcases List.mem_cons.mp hb with rfl | hb
    · exact ⟨_, by simp, hab⟩
    · obtain ⟨a, ha, hq⟩ := ih hb
      exact ⟨a, by simp [ha], hq⟩

end Loops

end MemoryLeak.Runs
