import Mathlib.Data.List.Induction
import Mathlib.Data.List.Perm.Basic
import Mathlib.Data.Int.Order.Basic

/-!
# Lists split from both ends

The values behind a pivot are compared with it from both ends of the list: those at its end that
are not below the pivot stay, then those at its beginning that are not above it, and the two values
found change places. What the two sides are is decided where the ends meet. A sort goes on with
each side; the splits of one side after the other form a chain.
-/
namespace MemoryLeak.TwoEnded

variable {α : Type*}

/-- The values that were moved up, and those below, at and above the place where the ends meet. -/
structure Meeting (α : Type*) where
  moved : List α
  below : List α
  mid : α
  above : List α

/-- The values `x :: ys` are still to be compared with the pivot `p`. -/
def meet (f : α → α → ℤ) (p : α) (below : List α) (x : α) (ys above : List α) :
    Meeting α :=
  if hys : ys = [] then ⟨[], below, x, above⟩
  else if f p (ys.getLast hys) ≤ 0 then
    meet f p below x ys.dropLast (ys.getLast hys :: above)
  else if 0 ≤ f p x then meet f p (below ++ [x]) (ys.head hys) ys.tail above
  else
    match _h : ys.dropLast with
    | [] => ⟨[x], below, ys.getLast hys, x :: above⟩
    | y :: ys' =>
      let m := meet f p (below ++ [ys.getLast hys]) y ys' (x :: above)
      { m with moved := x :: m.moved }
termination_by ys.length
decreasing_by
  · have := List.length_pos_iff.mpr hys
    rw [List.length_dropLast]
    omega
  · have := List.length_pos_iff.mpr hys
    rw [List.length_tail]
    omega
  · have hlength := congrArg List.length _h
    rw [List.length_dropLast, List.length_cons] at hlength
    omega

section Meeting

variable {f : α → α → ℤ} {p x y r : α} {below ys above : List α}

theorem meet_nil : meet f p below x [] above = ⟨[], below, x, above⟩ := by
  rw [meet, dif_pos rfl]

theorem meet_high (hr : f p r ≤ 0) :
    meet f p below x (ys ++ [r]) above = meet f p below x ys (r :: above) := by
  rw [meet, dif_neg (by simp)]
  simp only [List.getLast_append_singleton, List.dropLast_concat, if_pos hr]

theorem meet_low_last (hr : 0 < f p r) (hx : 0 ≤ f p x) :
    meet f p below x [r] above = ⟨[], below ++ [x], r, above⟩ := by
  rw [meet, dif_neg (by simp)]
  simp only [List.getLast_singleton, if_neg (not_le.mpr hr), if_pos hx, List.head_cons,
    List.tail_cons, meet_nil]

theorem meet_low (hr : 0 < f p r) (hx : 0 ≤ f p x) :
    meet f p below x (y :: (ys ++ [r])) above =
      meet f p (below ++ [x]) y (ys ++ [r]) above := by
  rw [meet, dif_neg (by simp)]
  have hlast : (y :: (ys ++ [r])).getLast (by simp) = r := by simp
  simp only [hlast, if_neg (not_le.mpr hr), if_pos hx, List.head_cons, List.tail_cons]

theorem meet_cross (hr : 0 < f p r) (hx : f p x < 0) :
    meet f p below x [r] above = ⟨[x], below, r, x :: above⟩ := by
  rw [meet, dif_neg (by simp)]
  simp only [List.getLast_singleton, if_neg (not_le.mpr hr), if_neg (not_le.mpr hx)]
  rfl

theorem meet_swap (hr : 0 < f p r) (hx : f p x < 0) :
    meet f p below x (y :: (ys ++ [r])) above =
      { meet f p (below ++ [r]) y ys (x :: above) with
        moved := x :: (meet f p (below ++ [r]) y ys (x :: above)).moved } := by
  rw [meet, dif_neg (by simp)]
  have hlast : (y :: (ys ++ [r])).getLast (by simp) = r := by simp
  have hinit : (y :: (ys ++ [r])).dropLast = y :: ys := by
    rw [← List.cons_append, List.dropLast_concat]
  simp only [hlast, if_neg (not_le.mpr hr), if_neg (not_le.mpr hx)]
  split
  · rename_i heq
    rw [hinit] at heq
    cases heq
  · rename_i heq
    rw [hinit] at heq
    cases heq
    rfl

end Meeting

/-- What each comparison keeps holds of the meeting. -/
@[elab_as_elim]
theorem meet_induction {f : α → α → ℤ} {p : α}
    {motive : List α → α → List α → List α → Meeting α → Prop}
    (met : ∀ below x above, motive below x [] above ⟨[], below, x, above⟩)
    (high : ∀ below x ys r above m, f p r ≤ 0 → motive below x ys (r :: above) m →
      motive below x (ys ++ [r]) above m)
    (lowLast : ∀ below x r above, 0 < f p r → 0 ≤ f p x →
      motive below x [r] above ⟨[], below ++ [x], r, above⟩)
    (low : ∀ below x y ys r above m, 0 < f p r → 0 ≤ f p x →
      motive (below ++ [x]) y (ys ++ [r]) above m → motive below x (y :: (ys ++ [r])) above m)
    (cross : ∀ below x r above, 0 < f p r → f p x < 0 →
      motive below x [r] above ⟨[x], below, r, x :: above⟩)
    (swap : ∀ below x y ys r above m, 0 < f p r → f p x < 0 →
      motive (below ++ [r]) y ys (x :: above) m →
      motive below x (y :: (ys ++ [r])) above { m with moved := x :: m.moved })
    (below : List α) (x : α) (ys above : List α) :
    motive below x ys above (meet f p below x ys above) := by
  induction hn : ys.length using Nat.strongRecOn generalizing below x ys above with
  | ind n ih =>
    rcases List.eq_nil_or_concat' ys with rfl | ⟨ms, r, rfl⟩
    · rw [meet_nil]
      exact met below x above
    rw [List.length_append, List.length_singleton] at hn
    rcases le_or_gt (f p r) 0 with hr | hr
    · rw [meet_high hr]
      exact high below x ms r above _ hr (ih _ (by omega) below x ms (r :: above) rfl)
    rcases le_or_gt 0 (f p x) with hx | hx
    · cases ms with
      | nil =>
        rw [List.nil_append, meet_low_last hr hx]
        exact lowLast below x r above hr hx
      | cons y ys =>
        rw [List.length_cons] at hn
        rw [List.cons_append, meet_low hr hx]
        refine low below x y ys r above _ hr hx (ih (ys ++ [r]).length ?_ _ y _ above rfl)
        rw [List.length_append, List.length_singleton]
        omega
    · cases ms with
      | nil =>
        rw [List.nil_append, meet_cross hr hx]
        exact cross below x r above hr hx
      | cons y ys =>
        rw [List.length_cons] at hn
        rw [List.cons_append, meet_swap hr hx]
        exact swap below x y ys r above _ hr hx (ih ys.length (by omega) _ y ys _ rfl)

variable {f : α → α → ℤ} {p x : α} {ys : List α}

/-- The values change places only. -/
theorem meet_perm (below : List α) (x : α) (ys above : List α) :
    let m := meet f p below x ys above
    (m.below ++ m.mid :: m.above).Perm (below ++ x :: (ys ++ above)) := by
  induction below, x, ys, above using meet_induction (f := f) (p := p) with
  | met below x above => exact .refl _
  | high below x ys r above m hr ih =>
    rw [List.append_assoc]
    exact ih
  | lowLast below x r above hr hx =>
    dsimp only
    rw [List.append_assoc]
    exact .refl _
  | low below x y ys r above m hr hx ih =>
    rw [List.append_assoc below [x]] at ih
    exact ih
  | cross below x r above hr hx => exact (List.Perm.swap x r above).append_left below
  | swap below x y ys r above m hr hx ih =>
    refine ih.trans ?_
    rw [List.append_assoc below]
    apply List.Perm.append_left below
    have hends : (r :: y :: ys ++ x :: above).Perm (x :: r :: y :: (ys ++ above)) :=
      List.perm_middle
    refine hends.trans (List.Perm.cons x ?_)
    have hlast : (y :: ys ++ r :: above).Perm (r :: y :: (ys ++ above)) := List.perm_middle
    rw [List.cons_append, List.append_assoc]
    exact hlast.symm

theorem meet_length (p x : α) (ys : List α) :
    (meet f p [] x ys []).below.length + (meet f p [] x ys []).above.length = ys.length := by
  have hlength := (meet_perm (f := f) (p := p) [] x ys []).length_eq
  simp only [List.length_append, List.length_cons, List.length_nil] at hlength
  omega

/-- Only values that were to be compared are moved up. -/
theorem moved_subset (below : List α) (x : α) (ys above : List α) :
    (meet f p below x ys above).moved ⊆ x :: ys := by
  induction below, x, ys, above using meet_induction (f := f) (p := p) with
  | met below x above => simp
  | high below x ys r above m hr ih =>
    exact List.Subset.trans ih (List.cons_subset_cons x (List.subset_append_left ys [r]))
  | lowLast below x r above hr hx => simp
  | low below x y ys r above m hr hx ih => exact List.subset_cons_of_subset x ih
  | cross below x r above hr hx => simp
  | swap below x y ys r above m hr hx ih =>
    intro v hv
    rcases List.mem_cons.mp hv with rfl | hv
    · exact List.mem_cons_self
    · have hmem := ih hv
      simp only [List.mem_cons, List.mem_append] at hmem ⊢
      tauto

/-- What is below is not above the pivot, and what is above is not below it. -/
theorem meet_sides (below : List α) (x : α) (ys above : List α) (hb : ∀ v ∈ below, 0 ≤ f p v)
    (ha : ∀ v ∈ above, f p v ≤ 0) :
    (∀ v ∈ (meet f p below x ys above).below, 0 ≤ f p v) ∧
      ∀ v ∈ (meet f p below x ys above).above, f p v ≤ 0 := by
  induction below, x, ys, above using meet_induction (f := f) (p := p) with
  | met below x above => exact ⟨hb, ha⟩
  | high below x ys r above m hr ih => exact ih hb (List.forall_mem_cons.mpr ⟨hr, ha⟩)
  | lowLast below x r above hr hx =>
    exact ⟨List.forall_mem_append.mpr ⟨hb, List.forall_mem_singleton.mpr hx⟩, ha⟩
  | low below x y ys r above m hr hx ih =>
    exact ih (List.forall_mem_append.mpr ⟨hb, List.forall_mem_singleton.mpr hx⟩) ha
  | cross below x r above hr hx => exact ⟨hb, List.forall_mem_cons.mpr ⟨le_of_lt hx, ha⟩⟩
  | swap below x y ys r above m hr hx ih =>
    exact ih (List.forall_mem_append.mpr ⟨hb, List.forall_mem_singleton.mpr (le_of_lt hr)⟩)
      (List.forall_mem_cons.mpr ⟨le_of_lt hx, ha⟩)

/-! ### Two sides -/

/-- The values moved up, and the two sides. -/
structure Parts (α : Type*) where
  moved : List α
  left : List α
  right : List α

/-- The pivot goes to the side that the value where the ends meet leaves to it. -/
def Meeting.halves (f : α → α → ℤ) (p : α) (m : Meeting α) : Parts α :=
  if f m.mid p < 0 then ⟨m.moved ++ [p], m.mid :: m.below, p :: m.above⟩
  else ⟨m.moved, p :: m.below, m.mid :: m.above⟩

/-- The pivot stands between the sides, in neither. -/
def Meeting.around (f : α → α → ℤ) (p : α) (m : Meeting α) : Parts α :=
  if 0 < f p m.mid then ⟨m.moved ++ [p], m.mid :: m.below, m.above⟩
  else if f p m.mid < 0 then
    match m.below.getLast? with
    | none => ⟨m.moved, [], m.mid :: m.above⟩
    | some c =>
      if 0 < f p c then ⟨m.moved ++ [p], c :: m.below.dropLast, m.mid :: m.above⟩
      else ⟨m.moved, p :: m.below.dropLast, m.mid :: m.above⟩
  else ⟨m.moved, p :: m.below, m.above⟩

/-- The values of a meeting and its pivot. -/
def Meeting.Has (m : Meeting α) (p v : α) : Prop :=
  v = p ∨ v ∈ m.below ∨ v = m.mid ∨ v ∈ m.above

/-- A way to split lists of two values or more into shorter ones. -/
structure Splitter (α : Type*) where
  f : α → α → ℤ
  cut : α → Meeting α → Parts α
  left_lt : ∀ p m, (cut p m).left.length < m.below.length + m.above.length + 2
  right_lt : ∀ p m, (cut p m).right.length < m.below.length + m.above.length + 2
  left_has : ∀ p m, ∀ v ∈ (cut p m).left, m.Has p v
  right_has : ∀ p m, ∀ v ∈ (cut p m).right, m.Has p v
  moved_has : ∀ p m, ∀ v ∈ (cut p m).moved, v = p ∨ v ∈ m.moved

namespace Splitter

variable (S : Splitter α)

/-- The split of `p :: x :: ys`. -/
def parts (p x : α) (ys : List α) : Parts α := S.cut p (meet S.f p [] x ys [])

theorem parts_length (p x : α) (ys : List α) :
    (S.parts p x ys).left.length < ys.length + 2 ∧
      (S.parts p x ys).right.length < ys.length + 2 := by
  have hlength := meet_length (f := S.f) p x ys
  have hl := S.left_lt p (meet S.f p [] x ys [])
  have hr := S.right_lt p (meet S.f p [] x ys [])
  unfold parts
  omega

/-- The sides and the values moved up are values of the list. -/
theorem parts_subset (p x : α) (ys : List α) :
    (S.parts p x ys).left ⊆ p :: x :: ys ∧ (S.parts p x ys).right ⊆ p :: x :: ys ∧
      (S.parts p x ys).moved ⊆ p :: x :: ys := by
  have hperm := meet_perm (f := S.f) (p := p) [] x ys []
  rw [List.nil_append, List.append_nil] at hperm
  have hhas : ∀ v, (meet S.f p [] x ys []).Has p v → v ∈ p :: x :: ys := by
    rintro v (rfl | hv)
    · exact List.mem_cons_self
    · apply List.mem_cons_of_mem
      apply hperm.mem_iff.mp
      simpa using hv
  refine ⟨fun v hv => ?_, fun v hv => ?_, fun v hv => ?_⟩
  · exact hhas v (S.left_has p _ v hv)
  · exact hhas v (S.right_has p _ v hv)
  · rcases S.moved_has p _ v hv with rfl | hv
    · exact List.mem_cons_self
    · exact List.mem_cons_of_mem p (moved_subset [] x ys [] hv)

/-- All values moved up in the sort that splits each side again. -/
def moved : List α → List α
  | p :: x :: ys =>
    (S.parts p x ys).moved ++ moved (S.parts p x ys).left ++ moved (S.parts p x ys).right
  | _ => []
termination_by l => l.length
decreasing_by
  · exact (S.parts_length p x ys).1
  · exact (S.parts_length p x ys).2

/-- The splits of a list, of its left side, of the left side of that, and so on. -/
def leftChain : List α → List (Parts α)
  | p :: x :: ys => S.parts p x ys :: leftChain (S.parts p x ys).left
  | _ => []
termination_by l => l.length
decreasing_by exact (S.parts_length p x ys).1

def rightChain : List α → List (Parts α)
  | p :: x :: ys => S.parts p x ys :: rightChain (S.parts p x ys).right
  | _ => []
termination_by l => l.length
decreasing_by exact (S.parts_length p x ys).2

@[simp] theorem moved_nil : S.moved [] = [] := by simp [moved]

@[simp] theorem moved_single (p : α) : S.moved [p] = [] := by simp [moved]

theorem moved_cons (p x : α) (ys : List α) : S.moved (p :: x :: ys) =
    (S.parts p x ys).moved ++ S.moved (S.parts p x ys).left ++ S.moved (S.parts p x ys).right := by
  rw [moved]

@[simp] theorem leftChain_nil : S.leftChain [] = [] := by simp [leftChain]

@[simp] theorem leftChain_single (p : α) : S.leftChain [p] = [] := by simp [leftChain]

theorem leftChain_cons (p x : α) (ys : List α) :
    S.leftChain (p :: x :: ys) = S.parts p x ys :: S.leftChain (S.parts p x ys).left := by
  rw [leftChain]

@[simp] theorem rightChain_nil : S.rightChain [] = [] := by simp [rightChain]

@[simp] theorem rightChain_single (p : α) : S.rightChain [p] = [] := by simp [rightChain]

theorem rightChain_cons (p x : α) (ys : List α) :
    S.rightChain (p :: x :: ys) = S.parts p x ys :: S.rightChain (S.parts p x ys).right := by
  rw [rightChain]

/-- A list of less than two values, or a split and what holds of its sides. -/
@[elab_as_elim]
theorem induction {motive : List α → Prop} (nil : motive []) (single : ∀ p, motive [p])
    (split : ∀ p x ys, motive (S.parts p x ys).left → motive (S.parts p x ys).right →
      motive (p :: x :: ys)) (l : List α) : motive l := by
  induction hn : l.length using Nat.strongRecOn generalizing l with
  | ind n ih =>
    match l, hn with
    | [], _ => exact nil
    | [p], _ => exact single p
    | p :: x :: ys, hn =>
      rw [List.length_cons, List.length_cons] at hn
      obtain ⟨hl, hr⟩ := S.parts_length p x ys
      exact split p x ys (ih _ (hn ▸ hl) _ rfl) (ih _ (hn ▸ hr) _ rfl)

/-- The sort moves values of the list. -/
theorem moved_sub (l : List α) : S.moved l ⊆ l := by
  induction l using S.induction with
  | nil => simp
  | single p => simp
  | split p x ys ihl ihr =>
    rw [moved_cons]
    obtain ⟨hl, hr, hmoved⟩ := S.parts_subset p x ys
    refine List.append_subset.mpr ⟨List.append_subset.mpr ⟨hmoved, ?_⟩, ?_⟩
    · exact fun v hv => hl (ihl hv)
    · exact fun v hv => hr (ihr hv)

end Splitter

section
variable (f : α → α → ℤ)

/-- The split into halves. -/
def halving : Splitter α where
  f := f
  cut := Meeting.halves f
  left_lt p m := by
    unfold Meeting.halves
    split_ifs <;> simp only [List.length_cons] <;> omega
  right_lt p m := by
    unfold Meeting.halves
    split_ifs <;> simp only [List.length_cons] <;> omega
  left_has p m v hv := by
    unfold Meeting.halves at hv
    unfold Meeting.Has
    split_ifs at hv <;> rcases List.mem_cons.mp hv with hv | hv <;> tauto
  right_has p m v hv := by
    unfold Meeting.halves at hv
    unfold Meeting.Has
    split_ifs at hv <;> rcases List.mem_cons.mp hv with hv | hv <;> tauto
  moved_has p m v hv := by
    unfold Meeting.halves at hv
    split_ifs at hv
    · rcases List.mem_append.mp hv with hv | hv
      · exact .inr hv
      · exact .inl (List.mem_singleton.mp hv)
    · exact .inr hv

/-- What was moved up before the ends met stays so. -/
theorem moved_halves (p : α) (m : Meeting α) : ∀ v ∈ m.moved, v ∈ (m.halves f p).moved := by
  intro v hv
  unfold Meeting.halves
  split_ifs
  · exact List.mem_append_left _ hv
  · exact hv

/-- The split around the pivot, one of whose kinds is described by `P`. -/
theorem around_cases {P : Parts α → Prop} (p : α) (m : Meeting α)
    (below : 0 < f p m.mid → P ⟨m.moved ++ [p], m.mid :: m.below, m.above⟩)
    (first : f p m.mid < 0 → m.below = [] → P ⟨m.moved, [], m.mid :: m.above⟩)
    (before : ∀ init c, f p m.mid < 0 → m.below = init ++ [c] → 0 < f p c →
      P ⟨m.moved ++ [p], c :: init, m.mid :: m.above⟩)
    (same : ∀ init c, f p m.mid < 0 → m.below = init ++ [c] → f p c ≤ 0 →
      P ⟨m.moved, p :: init, m.mid :: m.above⟩)
    (at_mid : f p m.mid = 0 → P ⟨m.moved, p :: m.below, m.above⟩) : P (m.around f p) := by
  unfold Meeting.around
  rcases lt_trichotomy (f p m.mid) 0 with hlt | heq | hgt
  · rw [if_neg (by omega), if_pos hlt]
    rcases List.eq_nil_or_concat' m.below with hnil | ⟨init, c, hinit⟩
    · rw [hnil]
      exact first hlt hnil
    · simp only [hinit, List.getLast?_append, List.getLast?_singleton, Option.some_or,
        List.dropLast_concat]
      split_ifs with hc
      · exact before init c hlt hinit hc
      · exact same init c hlt hinit (not_lt.mp hc)
  · rw [if_neg (by omega), if_neg (by omega)]
    exact at_mid heq
  · rw [if_pos hgt]
    exact below hgt

theorem halves_length (p : α) (m : Meeting α) : (m.halves f p).left ≠ [] ∧
    (m.halves f p).right ≠ [] ∧
    (m.halves f p).left.length + (m.halves f p).right.length =
      m.below.length + m.above.length + 2 := by
  unfold Meeting.halves
  split_ifs <;> simp <;> omega

theorem around_length (p : α) (m : Meeting α) :
    (m.around f p).left.length + (m.around f p).right.length =
      m.below.length + m.above.length + 1 := by
  apply around_cases f p m (P := fun s => s.left.length + s.right.length =
    m.below.length + m.above.length + 1)
  all_goals intros
  all_goals simp_all
  all_goals omega

theorem moved_around (p : α) (m : Meeting α) : ∀ v ∈ m.moved, v ∈ (m.around f p).moved := by
  apply around_cases f p m (P := fun s => ∀ v ∈ m.moved, v ∈ s.moved)
  all_goals intros
  all_goals simp_all

/-- Both parts are of values that the ends left where they were, and of the pivot. -/
theorem around_has (p : α) (m : Meeting α) :
    (∀ v ∈ (m.around f p).left, m.Has p v) ∧ ∀ v ∈ (m.around f p).right, m.Has p v := by
  apply around_cases f p m (P := fun s => (∀ v ∈ s.left, m.Has p v) ∧ ∀ v ∈ s.right, m.Has p v)
  all_goals intros
  all_goals simp_all [Meeting.Has]

theorem around_moved (p : α) (m : Meeting α) :
    ∀ v ∈ (m.around f p).moved, v = p ∨ v ∈ m.moved := by
  apply around_cases f p m (P := fun s => ∀ v ∈ s.moved, v = p ∨ v ∈ m.moved)
  all_goals intros
  all_goals simp_all
  all_goals tauto

theorem around_length_lt (p : α) (m : Meeting α) :
    (m.around f p).left.length < m.below.length + m.above.length + 2 ∧
      (m.around f p).right.length < m.below.length + m.above.length + 2 := by
  have hlength := around_length f p m
  omega

/-- The split around the pivot. -/
def pivoting : Splitter α where
  f := f
  cut := Meeting.around f
  left_lt p m := (around_length_lt f p m).1
  right_lt p m := (around_length_lt f p m).2
  left_has p m := (around_has f p m).1
  right_has p m := (around_has f p m).2
  moved_has p m := around_moved f p m

theorem halving_length (p x : α) (ys : List α) : ((halving f).parts p x ys).left ≠ [] ∧
    ((halving f).parts p x ys).right ≠ [] ∧
    ((halving f).parts p x ys).left.length + ((halving f).parts p x ys).right.length =
      ys.length + 2 := by
  obtain ⟨hl, hr, hlength⟩ := halves_length f p (meet f p [] x ys [])
  exact ⟨hl, hr, by rw [← meet_length (f := f) p x ys]; exact hlength⟩

theorem pivoting_length (p x : α) (ys : List α) :
    ((pivoting f).parts p x ys).left.length + ((pivoting f).parts p x ys).right.length =
      ys.length + 1 := by
  rw [← meet_length (f := f) p x ys]
  exact around_length f p (meet f p [] x ys [])

/-- What is right of the pivot is not below it. -/
theorem pivoting_right (p x : α) (ys : List α) :
    ∀ v ∈ ((pivoting f).parts p x ys).right, f p v ≤ 0 := by
  obtain ⟨-, habove⟩ := meet_sides (f := f) (p := p) [] x ys []
    (fun _ h => absurd h List.not_mem_nil) fun _ h => absurd h List.not_mem_nil
  apply around_cases f p (meet f p [] x ys []) (P := fun s => ∀ v ∈ s.right, f p v ≤ 0)
  · exact fun _ => habove
  · exact fun hlt _ => List.forall_mem_cons.mpr ⟨le_of_lt hlt, habove⟩
  · exact fun _ _ hlt _ _ => List.forall_mem_cons.mpr ⟨le_of_lt hlt, habove⟩
  · exact fun _ _ hlt _ _ => List.forall_mem_cons.mpr ⟨le_of_lt hlt, habove⟩
  · exact fun _ => habove

end

end MemoryLeak.TwoEnded
