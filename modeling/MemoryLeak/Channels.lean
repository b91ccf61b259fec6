import Mathlib.Data.List.Basic
import Mathlib.Logic.Relation

/-!
# Two machines at the ends of a connection

Each of the two is deterministic and knows of the other only by the messages that the
connection brings it, in their order. Which of them goes on is not determined. The order
makes no difference: if one schedule comes to an end, then every schedule comes to the same
one, after as many steps.
-/
namespace MemoryLeak.Channels
open Relation

section Diamond

variable {α : Type*} {r : α → α → Prop}

/-- A run of so many steps. -/
def Steps (r : α → α → Prop) : ℕ → α → α → Prop
  | 0, a, b => a = b
  | n + 1, a, b => ∃ x, r a x ∧ Steps r n x b

/-- Every run from `a` can go on to `e`, and all of them get there after as many steps. -/
def EndsIn (r : α → α → Prop) (a e : α) : Prop :=
  ∃ n, ∀ m b, Steps r m a b → m ≤ n ∧ Steps r (n - m) b e

theorem exists_steps {a b : α} (h : ReflTransGen r a b) : ∃ n, Steps r n a b := by
  induction h using ReflTransGen.head_induction_on with
  | refl => exact ⟨0, rfl⟩
  | head hstep _ ih =>
    obtain ⟨n, hn⟩ := ih
    exact ⟨n + 1, _, hstep, hn⟩

/-- A step that competes with the first one of a run can be made up for, or is part of it. -/
theorem step_of_diamond (hr : ∀ a b c, r a b → r a c → b = c ∨ ∃ d, r b d ∧ r c d) {n : ℕ}
    {a b e : α} (hend : ∀ x, ¬ r e x) (hrun : Steps r (n + 1) a e) (hab : r a b) :
    Steps r n b e := by
  induction n generalizing a b with
  | zero =>
    obtain ⟨c, hac, rfl⟩ := hrun
    rcases hr a b c hab hac with h | ⟨d, -, hd⟩
    · exact h
    · exact absurd hd (hend d)
  | succ n ih =>
    obtain ⟨c, hac, hrun⟩ := hrun
    rcases hr a b c hab hac with rfl | ⟨d, hbd, hcd⟩
    · exact hrun
    · exact ⟨d, hbd, ih hrun hcd⟩

theorem endsIn_of_diamond (hr : ∀ a b c, r a b → r a c → b = c ∨ ∃ d, r b d ∧ r c d) {a e : α}
    (hend : ∀ x, ¬ r e x) (hrun : ReflTransGen r a e) : EndsIn r a e := by
  obtain ⟨n, hn⟩ := exists_steps hrun
  refine ⟨n, fun m => ?_⟩
  clear hrun
  induction m generalizing a n with
  | zero =>
    rintro b rfl
    exact ⟨Nat.zero_le n, hn⟩
  | succ m ih =>
    rintro b ⟨c, hac, hcb⟩
    cases n with
    | zero =>
      cases hn
      exact absurd hac (hend c)
    | succ n =>
      obtain ⟨hle, hb⟩ := ih n (step_of_diamond hr hend hn hac) b hcb
      exact ⟨Nat.succ_le_succ hle, by rwa [Nat.succ_sub_succ]⟩

end Diamond

/-! ### Machines -/

/-- What a machine does next. `recv` learns that nothing more will come by `none`. -/
inductive Act (M S : Type*) where
  | halt
  | fault
  | send (m : M) (s : S)
  | recv (k : Option M → S)

variable {M S T : Type*}

def Act.halted : Act M S → Bool
  | .halt => true
  | _ => false

/-- The next state, what is left of the messages that have arrived, and what is sent. `closed`
says that nothing more will arrive. -/
def Act.next : Act M S → List M → Bool → Option (S × List M × List M)
  | .halt, _, _ => none
  | .fault, _, _ => none
  | .send m s, inbox, _ => some (s, inbox, [m])
  | .recv k, m :: inbox, _ => some (k (some m), inbox, [])
  | .recv k, [], closed => if closed then some (k none, [], []) else none

theorem Act.halted_of_next {act : Act M S} {inbox : List M} {closed : Bool}
    {r : S × List M × List M} (h : act.next inbox closed = some r) : act.halted = false := by
  cases act with
  | halt => cases h
  | _ => rfl

/-- What can be done can still be done when more has arrived. -/
theorem Act.next_append {act : Act M S} {inbox rest sent : List M} {s : S}
    (h : act.next inbox false = some (s, rest, sent)) (more : List M) (closed : Bool) :
    act.next (inbox ++ more) closed = some (s, rest ++ more, sent) := by
  cases act with
  | halt => cases h
  | fault => cases h
  | send m s =>
    cases h
    rfl
  | recv k =>
    cases inbox with
    | nil => cases h
    | cons m inbox =>
      cases h
      rfl

/-- The two machines and the messages under way. -/
structure Net (M S T : Type*) where
  left : S
  right : T
  toRight : List M
  toLeft : List M

/-- One of the two goes on. -/
inductive Step (f : S → Act M S) (g : T → Act M T) : Net M S T → Net M S T → Prop
  | left {s s' : S} {t : T} {toRight toLeft rest sent : List M}
      (h : (f s).next toLeft (g t).halted = some (s', rest, sent)) :
      Step f g ⟨s, t, toRight, toLeft⟩ ⟨s', t, toRight ++ sent, rest⟩
  | right {s : S} {t t' : T} {toRight toLeft rest sent : List M}
      (h : (g t).next toRight (f s).halted = some (t', rest, sent)) :
      Step f g ⟨s, t, toRight, toLeft⟩ ⟨s, t', rest, toLeft ++ sent⟩

variable {f : S → Act M S} {g : T → Act M T}

theorem step_diamond (a b c : Net M S T) (hb : Step f g a b) (hc : Step f g a c) :
    b = c ∨ ∃ d, Step f g b d ∧ Step f g c d := by
  cases hb with
  | @left s s' t toRight toLeft rest sent h =>
    cases hc with
    | left h' =>
      cases h.symm.trans h'
      exact Or.inl rfl
    | @right _ _ t' _ _ rest' sent' h' =>
      have hl := h
      have hr := h'
      rw [Act.halted_of_next h'] at hl
      rw [Act.halted_of_next h] at hr
      exact Or.inr ⟨⟨s', t', rest' ++ sent, rest ++ sent'⟩, .right (Act.next_append hr _ _),
        .left (Act.next_append hl _ _)⟩
  | @right s t t' toRight toLeft rest sent h =>
    cases hc with
    | @left _ s' _ _ _ rest' sent' h' =>
      have hl := h'
      have hr := h
      rw [Act.halted_of_next h] at hl
      rw [Act.halted_of_next h'] at hr
      exact Or.inr ⟨⟨s', t', rest ++ sent', rest' ++ sent⟩, .left (Act.next_append hl _ _),
        .right (Act.next_append hr _ _)⟩
    | right h' =>
      cases h.symm.trans h'
      exact Or.inl rfl

theorem not_step_of_halted {s : S} {t : T} {toRight toLeft : List M} (hs : f s = .halt)
    (ht : g t = .halt) (b : Net M S T) : ¬ Step f g ⟨s, t, toRight, toLeft⟩ b := by
  intro h
  cases h with
  | left h =>
    rw [hs] at h
    cases h
  | right h =>
    rw [ht] at h
    cases h

/-- One schedule tells how all of them end. -/
theorem endsIn_of_schedule {a : Net M S T} {s : S} {t : T} {toRight toLeft : List M}
    (hs : f s = .halt) (ht : g t = .halt)
    (hrun : ReflTransGen (Step f g) a ⟨s, t, toRight, toLeft⟩) :
    EndsIn (Step f g) a ⟨s, t, toRight, toLeft⟩ :=
  endsIn_of_diamond step_diamond (not_step_of_halted hs ht) hrun

/-! ### The steps of a schedule -/

theorem Step.left_send {s s' : S} {m : M} (h : f s = .send m s') (t : T)
    (toRight toLeft : List M) :
    Step f g ⟨s, t, toRight, toLeft⟩ ⟨s', t, toRight ++ [m], toLeft⟩ :=
  .left (by rw [h, Act.next])

theorem Step.right_send {t t' : T} {m : M} (h : g t = .send m t') (s : S)
    (toRight toLeft : List M) :
    Step f g ⟨s, t, toRight, toLeft⟩ ⟨s, t', toRight, toLeft ++ [m]⟩ :=
  .right (by rw [h, Act.next])

theorem Step.left_recv {s : S} {k : Option M → S} (h : f s = .recv k) (t : T) (m : M)
    (toRight toLeft : List M) :
    Step f g ⟨s, t, toRight, m :: toLeft⟩ ⟨k (some m), t, toRight, toLeft⟩ := by
  have hnext : (f s).next (m :: toLeft) (g t).halted = some (k (some m), toLeft, []) := by
    rw [h, Act.next]
  have hstep : Step f g ⟨s, t, toRight, m :: toLeft⟩ ⟨k (some m), t, toRight ++ [], toLeft⟩ :=
    .left hnext
  rwa [List.append_nil] at hstep

theorem Step.right_recv {t : T} {k : Option M → T} (h : g t = .recv k) (s : S) (m : M)
    (toRight toLeft : List M) :
    Step f g ⟨s, t, m :: toRight, toLeft⟩ ⟨s, k (some m), toRight, toLeft⟩ := by
  have hnext : (g t).next (m :: toRight) (f s).halted = some (k (some m), toRight, []) := by
    rw [h, Act.next]
  have hstep : Step f g ⟨s, t, m :: toRight, toLeft⟩ ⟨s, k (some m), toRight, toLeft ++ []⟩ :=
    .right hnext
  rwa [List.append_nil] at hstep

theorem Step.left_closed {s : S} {k : Option M → S} (h : f s = .recv k) {t : T}
    (ht : g t = .halt) (toRight : List M) :
    Step f g ⟨s, t, toRight, []⟩ ⟨k none, t, toRight, []⟩ := by
  have hnext : (f s).next [] (g t).halted = some (k none, [], []) := by
    rw [h, ht]
    rfl
  have hstep : Step f g ⟨s, t, toRight, []⟩ ⟨k none, t, toRight ++ [], []⟩ := .left hnext
  rwa [List.append_nil] at hstep

/-- A machine that has a list of messages to send sends them all. -/
theorem right_sends {st : List M → T} (h : ∀ m ms, g (st (m :: ms)) = .send m (st ms))
    (ms : List M) (s : S) (toRight toLeft : List M) :
    ReflTransGen (Step f g) ⟨s, st ms, toRight, toLeft⟩ ⟨s, st [], toRight, toLeft ++ ms⟩ := by
  induction ms generalizing toLeft with
  | nil => rw [List.append_nil]
  | cons m ms ih =>
    have hrest := ih (toLeft ++ [m])
    rw [List.append_assoc, List.singleton_append] at hrest
    exact .head (.right_send (h m ms) s toRight toLeft) hrest

end MemoryLeak.Channels
