import Mathlib.Order.Basic
import Mathlib.Data.List.Induction

/-!
# Loops with fuel

A `while` loop is its turn, iterated until a turn leaves it. The fuel bounds the
turns; a loop that has not ended when it runs out has no outcome, nor has one with a
turn outside the defined behaviour. A turn may hand its own fuel to inner loops.
-/
namespace MemoryLeak.Loops

variable {σ ρ : Type*}

/-- How a turn ends. -/
inductive Turn (σ : Type*) where
  | again (s : σ)
  | leave (s : σ)

def Turn.map (φ : σ → ρ) : Turn σ → Turn ρ
  | .again s => .again (φ s)
  | .leave s => .leave (φ s)

def whileLoop (turn : σ → Option (Turn σ)) : ℕ → σ → Option σ
  | 0, _ => none
  | n + 1, s =>
    match turn s with
    | none => none
    | some (.again s') => whileLoop turn n s'
    | some (.leave s') => some s'

theorem whileLoop_again {turn : σ → Option (Turn σ)} {s s' : σ} (h : turn s = some (.again s'))
    {n : ℕ} (hn : 0 < n) : whileLoop turn n s = whileLoop turn (n - 1) s' := by
  cases n with
  | zero => cases hn
  | succ n => simp only [whileLoop, h, Nat.add_sub_cancel]

theorem whileLoop_leave {turn : σ → Option (Turn σ)} {s s' : σ} (h : turn s = some (.leave s'))
    {n : ℕ} (hn : 0 < n) : whileLoop turn n s = some s' := by
  cases n with
  | zero => cases hn
  | succ n => simp only [whileLoop, h]

/-- How a loop that ends begins. -/
theorem exists_whileLoop_iff {turn : σ → Option (Turn σ)} {s s' : σ} :
    (∃ n, whileLoop turn n s = some s') ↔ turn s = some (.leave s') ∨
      ∃ s₁, turn s = some (.again s₁) ∧ ∃ n, whileLoop turn n s₁ = some s' := by
  constructor
  · rintro ⟨n, h⟩
    cases n with
    | zero => cases h
    | succ n =>
      rw [whileLoop] at h
      cases hs : turn s with
      | none => simp [hs] at h
      | some t =>
        cases t with
        | again s₁ =>
          simp only [hs] at h
          exact Or.inr ⟨s₁, rfl, n, h⟩
        | leave s₁ =>
          simp only [hs] at h
          cases h
          exact Or.inl rfl
  · rintro (h | ⟨s₁, h, n, hrest⟩)
    · exact ⟨1, whileLoop_leave h Nat.one_pos⟩
    · exact ⟨n + 1, (whileLoop_again h n.succ_pos).trans hrest⟩

/-- More fuel changes nothing. -/
theorem whileLoop_mono {turn : σ → Option (Turn σ)} {n m : ℕ} {s s' : σ}
    (h : whileLoop turn n s = some s') (hnm : n ≤ m) : whileLoop turn m s = some s' := by
  induction n generalizing m s with
  | zero => cases h
  | succ n ih =>
    obtain ⟨m, rfl⟩ : ∃ k, m = k + 1 := ⟨m - 1, by omega⟩
    rw [whileLoop] at h ⊢
    cases hs' : turn s with
    | none =>
      rw [hs'] at h
      cases h
    | some t =>
      rw [hs'] at h
      cases t with
      | again s₁ => exact ih h (Nat.le_of_succ_le_succ hnm)
      | leave s₁ => exact h

/-- A turn that changes nothing is repeated for ever. -/
theorem whileLoop_stuck {turn : σ → Option (Turn σ)} {s : σ} (h : turn s = some (.again s))
    (n : ℕ) : whileLoop turn n s = none := by
  induction n with
  | zero => rfl
  | succ n ih => rw [whileLoop, h]; exact ih

/-- What every turn keeps holds when the loop ends. -/
theorem whileLoop_inv {turn : σ → Option (Turn σ)} {I : σ → Prop}
    (hturn : ∀ s s', I s → turn s = some (.again s') ∨ turn s = some (.leave s') → I s') {n : ℕ}
    {s s' : σ} (hs : I s) (h : whileLoop turn n s = some s') : I s' := by
  induction n generalizing s with
  | zero => cases h
  | succ n ih =>
    rw [whileLoop] at h
    cases hs' : turn s with
    | none =>
      rw [hs'] at h
      cases h
    | some t =>
      rw [hs'] at h
      cases t with
      | again s₁ => exact ih (hturn s s₁ hs (Or.inl hs')) h
      | leave s₁ =>
        have heq : s₁ = s' := Option.some.inj h
        exact heq ▸ hturn s s₁ hs (Or.inr hs')

/-- The turn that leaves. -/
theorem whileLoop_left {turn : σ → Option (Turn σ)} {I : σ → Prop}
    (hI : ∀ s s', I s → turn s = some (.again s') → I s') {n : ℕ} {s s' : σ} (hs : I s)
    (h : whileLoop turn n s = some s') : ∃ s₁, I s₁ ∧ turn s₁ = some (.leave s') := by
  induction n generalizing s with
  | zero => cases h
  | succ n ih =>
    rw [whileLoop] at h
    cases hs' : turn s with
    | none =>
      rw [hs'] at h
      cases h
    | some t =>
      rw [hs'] at h
      cases t with
      | again s₁ => exact ih (hI s s₁ hs hs') h
      | leave s₁ =>
        have heq : s₁ = s' := Option.some.inj h
        exact ⟨s, hs, heq ▸ hs'⟩

/-- The states in which a turn of a loop begins. -/
inductive Visits (turn : σ → Option (Turn σ)) (s : σ) : σ → Prop where
  | start : Visits turn s s
  | next {s₁ s₂ : σ} (h : Visits turn s s₁) (hturn : turn s₁ = some (.again s₂)) : Visits turn s s₂

/-- What every turn keeps holds in each of these states. -/
theorem Visits.inv {turn : σ → Option (Turn σ)} {I : σ → Prop}
    (hI : ∀ s s', I s → turn s = some (.again s') → I s') {s s' : σ} (hs : I s)
    (h : Visits turn s s') : I s' := by
  induction h with
  | start => exact hs
  | next _ hturn ih => exact hI _ _ ih hturn

/-- A loop whose states are known, from the first to the one in which it is left. -/
theorem whileLoop_steps {turn : σ → Option (Turn σ)} {run : ℕ → σ} {k : ℕ} {s' : σ}
    (hagain : ∀ i < k, turn (run i) = some (.again (run (i + 1))))
    (hleave : turn (run k) = some (.leave s')) {n : ℕ} (hn : k < n) :
    whileLoop turn n (run 0) = some s' := by
  induction k generalizing run n with
  | zero => exact whileLoop_leave hleave hn
  | succ k ih =>
    rw [whileLoop_again (hagain 0 (Nat.succ_pos k)) (by omega)]
    exact @ih (fun i => run (i + 1)) (fun i hi => hagain (i + 1) (Nat.succ_lt_succ hi)) hleave _
      (by omega)

/-- A loop whose states are known ends exactly when, after turns that go on, one leaves. -/
theorem whileLoop_ends_iff {turn : σ → Option (Turn σ)} {run : ℕ → σ}
    (hrun : ∀ i s', turn (run i) = some (.again s') → s' = run (i + 1)) :
    (∃ n s', whileLoop turn n (run 0) = some s') ↔
      ∃ i, (∃ s', turn (run i) = some (.leave s')) ∧
        ∀ j < i, ∃ s', turn (run j) = some (.again s') := by
  constructor
  · rintro ⟨n, s', h⟩
    obtain ⟨_, ⟨i, rfl, hbefore⟩, hleave⟩ := whileLoop_left
      (I := fun s => ∃ i, run i = s ∧ ∀ j < i, ∃ s', turn (run j) = some (.again s'))
      (fun s s₁ hs hagain => by
        obtain ⟨i, rfl, hbefore⟩ := hs
        refine ⟨i + 1, (hrun i s₁ hagain).symm, fun j hj => ?_⟩
        rcases Nat.lt_succ_iff_lt_or_eq.mp hj with hj | rfl
        · exact hbefore j hj
        · exact ⟨s₁, hagain⟩)
      ⟨0, rfl, fun j hj => absurd hj (Nat.not_lt_zero j)⟩ h
    exact ⟨i, ⟨s', hleave⟩, hbefore⟩
  · rintro ⟨i, ⟨s', hleave⟩, hbefore⟩
    refine ⟨i + 1, s', whileLoop_steps (fun j hj => ?_) hleave (Nat.lt_succ_self i)⟩
    obtain ⟨s₁, hagain⟩ := hbefore j hj
    rw [hagain, hrun j s₁ hagain]

/-- A loop on an image of the state, where every turn is the image of a turn. -/
theorem whileLoop_map {turn : σ → Option (Turn σ)} {turn' : ρ → Option (Turn ρ)} {I : σ → Prop}
    (φ : σ → ρ) (hturn : ∀ s, I s → turn' (φ s) = (turn s).map (Turn.map φ))
    (hI : ∀ s s', I s → turn s = some (.again s') → I s') (n : ℕ) {s : σ} (hs : I s) :
    whileLoop turn' n (φ s) = (whileLoop turn n s).map φ := by
  induction n generalizing s with
  | zero => rfl
  | succ n ih =>
    rw [whileLoop, whileLoop, hturn s hs]
    cases hs' : turn s with
    | none => rfl
    | some t =>
      cases t with
      | again s₁ => exact ih (hI s s₁ hs hs')
      | leave s₁ => rfl

/-- Each turn of the one loop is matched by a turn of the other, which may have more fuel. -/
theorem whileLoop_sim {turn : σ → Option (Turn σ)} {turn' : ρ → Option (Turn ρ)} {R : σ → ρ → Prop}
    (hagain : ∀ s t s₁, R s t → turn s = some (.again s₁) →
      ∃ t₁, turn' t = some (.again t₁) ∧ R s₁ t₁)
    (hleave : ∀ s t s₁, R s t → turn s = some (.leave s₁) →
      ∃ t₁, turn' t = some (.leave t₁) ∧ R s₁ t₁)
    {n m : ℕ} {s s' : σ} {t : ρ} (hR : R s t) (h : whileLoop turn n s = some s') (hnm : n ≤ m) :
    ∃ t', whileLoop turn' m t = some t' ∧ R s' t' := by
  induction n generalizing m s t with
  | zero => cases h
  | succ n ih =>
    rw [whileLoop] at h
    cases hs : turn s with
    | none =>
      rw [hs] at h
      cases h
    | some o =>
      rw [hs] at h
      cases o with
      | again s₁ =>
        obtain ⟨t₁, ht, hR₁⟩ := hagain s t s₁ hR hs
        rw [whileLoop_again ht (Nat.lt_of_lt_of_le (Nat.succ_pos n) hnm)]
        exact ih hR₁ h (Nat.le_sub_one_of_lt hnm)
      | leave s₁ =>
        obtain ⟨t₁, ht, hR₁⟩ := hleave s t s₁ hR hs
        cases h
        exact ⟨t₁, whileLoop_leave ht (Nat.lt_of_lt_of_le (Nat.succ_pos n) hnm), hR₁⟩

/-- Two turns that are the same on the states that occur. -/
theorem whileLoop_congr {turn turn' : σ → Option (Turn σ)} {I : σ → Prop}
    (hturn : ∀ s, I s → turn' s = turn s) (hI : ∀ s s', I s → turn s = some (.again s') → I s')
    (n : ℕ) {s : σ} (hs : I s) : whileLoop turn' n s = whileLoop turn n s := by
  induction n generalizing s with
  | zero => rfl
  | succ n ih =>
    rw [whileLoop, whileLoop, hturn s hs]
    cases hs' : turn s with
    | none => rfl
    | some t =>
      cases t with
      | again s₁ => exact ih (hI s s₁ hs hs')
      | leave s₁ => rfl

/-- An invariant and a measure that falls with each turn: from some fuel on the loop
ends, whatever the fuel, in the same state. -/
theorem whileLoop_spec {turn : ℕ → σ → Option (Turn σ)} {I J : σ → Prop} (μ : σ → ℕ) (B : ℕ)
    (hturn : ∀ s, I s → μ s ≤ B →
      (∃ s', (∀ k, B < k → turn k s = some (.again s')) ∧ I s' ∧ μ s' < μ s) ∨
      ∃ s', (∀ k, B < k → turn k s = some (.leave s')) ∧ J s')
    {s : σ} (hs : I s) (hB : μ s ≤ B) :
    ∃ s', (∀ k n, B < k → μ s < n → whileLoop (turn k) n s = some s') ∧ J s' := by
  induction hm : μ s using Nat.strongRecOn generalizing s with
  | ind m ih =>
    rcases hturn s hs hB with ⟨s₁, hstep, hs₁, hlt⟩ | ⟨s₁, hstep, hJ⟩
    · obtain ⟨s', hloop, hJ⟩ := ih (μ s₁) (by omega) hs₁ (by omega) rfl
      refine ⟨s', fun k n hk hn => ?_, hJ⟩
      rw [whileLoop_again (hstep k hk) (by omega)]
      exact hloop k (n - 1) hk (by omega)
    · exact ⟨s₁, fun k n hk hn => whileLoop_leave (hstep k hk) (by omega), hJ⟩

/-- With more than some number of turns, for it and for the loops inside it, a run has the
outcome `o`. -/
def Settles (run : ℕ → ℕ → Option ρ) (o : Option ρ) : Prop :=
  ∃ B, ∀ k n, B < k → B < n → run k n = o

namespace Settles

theorem unique {run : ℕ → ℕ → Option ρ} {o o' : Option ρ} (h : Settles run o)
    (h' : Settles run o') : o = o' := by
  obtain ⟨B, hB⟩ := h
  obtain ⟨B', hB'⟩ := h'
  rw [← hB (B + B' + 1) (B + B' + 1) (by omega) (by omega), hB' _ _ (by omega) (by omega)]

theorem const (o : Option ρ) : Settles (fun _ _ => o) o := ⟨0, fun _ _ _ _ => rfl⟩

/-- A call uses up a unit of the second kind. -/
theorem succ {run : ℕ → ℕ → Option ρ} {o : Option ρ} (h : Settles (fun k n => run k (n + 1)) o) :
    Settles run o := by
  obtain ⟨B, hB⟩ := h
  refine ⟨B + 1, fun k n hk hn => ?_⟩
  obtain ⟨n, rfl⟩ : ∃ m, n = m + 1 := ⟨n - 1, by omega⟩
  exact hB k n (by omega) (by omega)

/-- One run after the other. -/
theorem bind_some {run : ℕ → ℕ → Option σ} {next : ℕ → ℕ → σ → Option ρ} {x : σ} {o : Option ρ}
    (h : Settles run (some x)) (h' : Settles (fun k n => next k n x) o) :
    Settles (fun k n => (run k n).bind (next k n)) o := by
  obtain ⟨B, hB⟩ := h
  obtain ⟨B', hB'⟩ := h'
  refine ⟨B + B', fun k n hk hn => ?_⟩
  dsimp only
  rw [hB k n (by omega) (by omega), Option.bind_some]
  exact hB' k n (by omega) (by omega)

theorem bind_none {run : ℕ → ℕ → Option σ} (h : Settles run none) (next : ℕ → ℕ → σ → Option ρ) :
    Settles (fun k n => (run k n).bind (next k n)) none := by
  obtain ⟨B, hB⟩ := h
  refine ⟨B, fun k n hk hn => ?_⟩
  dsimp only
  rw [hB k n hk hn, Option.bind_none]

variable {turn : ℕ → σ → Option (Turn σ)} {s s' : σ} {o : Option σ}

theorem leave (h : ∃ B, ∀ k, B < k → turn k s = some (.leave s')) :
    Settles (fun k n => whileLoop (turn k) n s) (some s') := by
  obtain ⟨B, hB⟩ := h
  exact ⟨B, fun k n hk hn => whileLoop_leave (hB k hk) (Nat.zero_lt_of_lt hn)⟩

theorem stop (h : ∃ B, ∀ k, B < k → turn k s = none) :
    Settles (fun k n => whileLoop (turn k) n s) none := by
  obtain ⟨B, hB⟩ := h
  refine ⟨B, fun k n hk hn => ?_⟩
  obtain ⟨n, rfl⟩ : ∃ m, n = m + 1 := ⟨n - 1, by omega⟩
  simp only [whileLoop, hB k hk]

theorem again (h : ∃ B, ∀ k, B < k → turn k s = some (.again s'))
    (h' : Settles (fun k n => whileLoop (turn k) n s') o) :
    Settles (fun k n => whileLoop (turn k) n s) o := by
  obtain ⟨B, hB⟩ := h
  obtain ⟨B', hB'⟩ := h'
  refine ⟨B + B' + 1, fun k n hk hn => ?_⟩
  dsimp only
  rw [whileLoop_again (hB k (by omega)) (by omega)]
  exact hB' k (n - 1) (by omega) (by omega)

/-- Two states with the same turn. -/
theorem same (h : ∃ B, ∀ k, B < k → turn k s = turn k s')
    (h' : Settles (fun k n => whileLoop (turn k) n s') o) :
    Settles (fun k n => whileLoop (turn k) n s) o := by
  obtain ⟨B, hB⟩ := h
  obtain ⟨B', hB'⟩ := h'
  refine ⟨B + B', fun k n hk hn => ?_⟩
  rw [← hB' k n (by omega) (by omega)]
  obtain ⟨n, rfl⟩ : ∃ m, n = m + 1 := ⟨n - 1, by omega⟩
  simp only [whileLoop, hB k (by omega)]

end Settles

/-! ### Loops over lists -/

/-- The state after each turn is known from the items seen. -/
theorem foldlM_seen {α : Type*} {f : σ → α → Option σ} (F : List α → σ) {l : List α}
    (h : ∀ seen x rest, l = seen ++ x :: rest → f (F seen) x = some (F (seen ++ [x]))) :
    l.foldlM f (F []) = some (F l) := by
  induction l using List.reverseRecOn with
  | nil => rfl
  | append_singleton l x ih =>
    have hinit : ∀ seen y rest, l = seen ++ y :: rest → f (F seen) y = some (F (seen ++ [y])) := by
      intro seen y rest hl
      apply h seen y (rest ++ [x])
      rw [hl, List.append_assoc, List.cons_append]
    rw [List.foldlM_append, ih hinit, Option.bind_eq_bind, Option.bind_some, List.foldlM_cons,
      h l x [] rfl]
    rfl

/-- The state after each turn is known from the number of turns. -/
theorem foldlM_counted {f : σ → ℕ → Option σ} (F : ℕ → σ) (a n : ℕ)
    (h : ∀ i < n, f (F i) (a + i) = some (F (i + 1))) :
    (List.range' a n).foldlM f (F 0) = some (F n) := by
  induction n with
  | zero => rfl
  | succ n ih =>
    rw [List.range'_concat, Nat.one_mul, List.foldlM_append,
      ih fun i hi => h i (Nat.lt_succ_of_lt hi), Option.bind_eq_bind, Option.bind_some,
      List.foldlM_cons, h n (Nat.lt_succ_self n)]
    rfl

/-- A loop that ends has taken each of its turns. -/
theorem foldlM_taken {α : Type*} {f : σ → α → Option σ} {l : List α} {s s' : σ}
    (h : l.foldlM f s = some s') {x : α} (hx : x ∈ l) : ∃ t t', f t x = some t' := by
  induction l generalizing s with
  | nil => exact absurd hx List.not_mem_nil
  | cons y l ih =>
    rw [List.foldlM_cons] at h
    obtain ⟨t, ht, h⟩ := Option.bind_eq_some_iff.mp h
    cases List.mem_cons.mp hx with
    | inl hy =>
      rw [hy]
      exact ⟨s, t, ht⟩
    | inr hl => exact ih h hl

/-! ### Steps that may fail -/

/-- Two steps end well when both do. -/
theorem bind_eq_ok_iff {ε α β : Type} {x : Except ε α} {f : α → Except ε β} {b : β} :
    (x >>= f) = .ok b ↔ ∃ a, x = .ok a ∧ f a = .ok b := by
  cases x with
  | error e =>
    refine iff_of_false (fun h => nomatch h) ?_
    rintro ⟨_, h, -⟩
    cases h
  | ok a =>
    refine ⟨fun h => ⟨a, rfl, h⟩, ?_⟩
    rintro ⟨a', ha, h⟩
    obtain rfl := Except.ok.inj ha
    exact h

theorem map_eq_bind {ε α β : Type} (x : Except ε α) (f : α → β) :
    x.map f = x >>= fun a => .ok (f a) := by
  cases x with
  | error e => rfl
  | ok a => rfl

end MemoryLeak.Loops
