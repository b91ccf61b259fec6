import MemoryLeak.Runs

/-!
# Accumulating buffers

A buffer that items are appended to, that is emptied by handing everything out
at once, and that may be started over with an item when there is no room. A
trace is legal if every hand-out is the concatenation of the items pending; a
machine that keeps the bytes of its pending items produces legal traces only.
-/
namespace MemoryLeak.Streams
open MemoryLeak.Runs

variable {α : Type*}

inductive Event (α : Type*) where
  /-- An item stored behind the others. -/
  | push (item : List α)
  /-- What was stored is dropped, the item is stored first. -/
  | restart (item : List α)
  /-- Everything stored is handed out. -/
  | drain (out : List α)

namespace Event

/-- The items pending after an event. -/
def next (pending : List (List α)) : Event α → List (List α)
  | push item => pending ++ [item]
  | restart item => [item]
  | drain _ => []

def Allowed (pending : List (List α)) : Event α → Prop
  | drain out => out = pending.flatten
  | _ => True

def item? : Event α → Option (List α)
  | push item => some item
  | restart item => some item
  | drain _ => none

def drained? : Event α → Option (List α)
  | drain out => some out
  | _ => none

end Event

/-- The items pending after a history that starts with the given ones. -/
def pendingFrom (pending : List (List α)) (h : List (Event α)) : List (List α) :=
  h.foldl Event.next pending

/-- The items stored since the later of the last drain and the last restart, the
item of the restart included. -/
def since (h : List (Event α)) : List (List α) := pendingFrom [] h

/-- All items stored in a history, in order. -/
def items (h : List (Event α)) : List (List α) := h.filterMap Event.item?

/-- What the drains of a history handed out. -/
def drains (h : List (Event α)) : List (List α) := h.filterMap Event.drained?

/-- Every drain of the history hands out the items pending there. -/
def Legal : List (List α) → List (Event α) → Prop
  | _, [] => True
  | p, e :: h => e.Allowed p ∧ Legal (e.next p) h

@[simp] theorem pendingFrom_nil (p : List (List α)) : pendingFrom p [] = p := rfl

@[simp] theorem pendingFrom_cons (p : List (List α)) (e : Event α) (h : List (Event α)) :
    pendingFrom p (e :: h) = pendingFrom (e.next p) h := rfl

@[simp] theorem items_push (x : List α) (h : List (Event α)) :
    items (.push x :: h) = x :: items h := rfl

@[simp] theorem items_restart (x : List α) (h : List (Event α)) :
    items (.restart x :: h) = x :: items h := rfl

@[simp] theorem items_drain (out : List α) (h : List (Event α)) :
    items (.drain out :: h) = items h := rfl

@[simp] theorem drains_push (x : List α) (h : List (Event α)) :
    drains (.push x :: h) = drains h := rfl

@[simp] theorem drains_restart (x : List α) (h : List (Event α)) :
    drains (.restart x :: h) = drains h := rfl

@[simp] theorem drains_drain (out : List α) (h : List (Event α)) :
    drains (.drain out :: h) = out :: drains h := rfl

theorem pendingFrom_append (p : List (List α)) (h h' : List (Event α)) :
    pendingFrom p (h ++ h') = pendingFrom (pendingFrom p h) h' := by
  simp [pendingFrom]

theorem legal_append {p : List (List α)} {h h' : List (Event α)} :
    Legal p (h ++ h') ↔ Legal p h ∧ Legal (pendingFrom p h) h' := by
  induction h generalizing p with
  | nil => simp [Legal]
  | cons e h ih => simp only [List.cons_append, Legal, ih, pendingFrom_cons, and_assoc]

/-- The items handed out by all drains together are items of the history, each
whole, in their order and at most once; those pending at the end come after them. -/
theorem Legal.exists_handed {p : List (List α)} {h : List (Event α)} (hl : Legal p h) :
    ∃ handed : List (List (List α)), drains h = handed.map List.flatten ∧
      List.Sublist (handed.flatten ++ pendingFrom p h) (p ++ items h) := by
  induction h generalizing p with
  | nil => exact ⟨[], rfl, by simp [items]⟩
  | cons e h ih =>
    obtain ⟨handed, hd, hsub⟩ := ih hl.2
    cases e with
    | push x => exact ⟨handed, hd, by simpa [Event.next] using hsub⟩
    | restart x =>
      have hx : List.Sublist ([x] ++ items h) (p ++ ([x] ++ items h)) :=
        List.sublist_append_right _ _
      exact ⟨handed, hd, by simpa using hsub.trans hx⟩
    | drain out =>
      have hout : out = p.flatten := hl.1
      refine ⟨p :: handed, by simp [hout, hd], ?_⟩
      simpa [Event.next] using hsub.append_left p

section Machine

variable {σ ε ω : Type*} (step : σ → ε → σ × ω) (events : ε → ω → List (Event α))

/-- The trace of a run, given what the events of one step are. -/
def trace (s : σ) (es : List ε) : List (Event α) :=
  (List.zipWith events es (exec step s es).2).flatten

theorem trace_cons (s : σ) (e : ε) (es : List ε) :
    trace step events s (e :: es) =
      events e (step s e).2 ++ trace step events (step s e).1 es := rfl

variable {step events} {R : σ → List (List α) → Prop} {C : σ → ε → Prop}

/-- If every step keeps the pending items under `R` and has legal events, the whole
trace is legal. -/
theorem trace_legal
    (hstep : ∀ s e p, R s p → C s e → Legal p (events e (step s e).2) ∧
      R (step s e).1 (pendingFrom p (events e (step s e).2)))
    {s : σ} {p : List (List α)} {es : List ε} (hs : R s p) (hC : Along step C s es) :
    Legal p (trace step events s es) ∧
      R (exec step s es).1 (pendingFrom p (trace step events s es)) := by
  induction es generalizing s p with
  | nil => exact ⟨trivial, hs⟩
  | cons e es ih =>
    obtain ⟨hlegal, hR⟩ := hstep s e p hs hC.1
    obtain ⟨hlegal', hR'⟩ := ih hR hC.2
    rw [trace_cons, legal_append, pendingFrom_append]
    exact ⟨⟨hlegal, hlegal'⟩, hR'⟩

/-- If every step hands out and keeps what was held and what comes in, in this order,
then so does the whole run. -/
theorem exec_conserves {input : ε → List α} {output : ω → List α} {held : σ → List α}
    (hstep : ∀ s e, C s e → output (step s e).2 ++ held (step s e).1 = held s ++ input e)
    {s : σ} {es : List ε} (hC : Along step C s es) :
    (exec step s es).2.flatMap output ++ held (exec step s es).1 = held s ++ es.flatMap input := by
  induction es generalizing s with
  | nil => simp
  | cons e es ih =>
    simp only [exec_cons, List.flatMap_cons, List.append_assoc]
    rw [ih hC.2, ← List.append_assoc, hstep s e hC.1, List.append_assoc]

end Machine

end MemoryLeak.Streams
