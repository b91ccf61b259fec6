import Mathlib.Order.Nat

/-!
# Arrays of pointers that end at null

An array of pointer slots, cleared, is filled from its first slot on and then resized to one
slot more than it holds. It ends at a null pointer if the slot behind the last one was there
before; a walk up to the null pointer then visits what the array holds.
-/
namespace MemoryLeak.SlotArray

variable {α : Type*}

/-- A slot: null, a pointer to something, or memory that was never written. -/
inductive Slot (α : Type*) where
  | null
  | ptr (x : α)
  | junk

/-- A write to slot `i`, which has to be inside of the array. -/
def store (slots : List (Slot α)) (i : ℕ) (x : Slot α) : Option (List (Slot α)) :=
  if i < slots.length then some (slots.set i x) else none

/-- The first slots point to `xs`, the others are null. -/
def filled (cap : ℕ) (xs : List α) : List (Slot α) :=
  xs.map Slot.ptr ++ List.replicate (cap - xs.length) Slot.null

/-- What `realloc` to `n` slots makes of an array: slots behind its end are not written. -/
def resized (slots : List (Slot α)) (n : ℕ) : List (Slot α) :=
  slots.take n ++ List.replicate (n - slots.length) Slot.junk

/-- `while (a[i]) ++i`: what is visited up to the null pointer. A walk that comes to memory
that was never written, or to the end of the array, has no outcome. -/
def walk : List (Slot α) → Option (List α)
  | .null :: _ => some []
  | .ptr x :: rest => (walk rest).map (x :: ·)
  | _ => none

theorem filled_length {cap : ℕ} {xs : List α} (h : xs.length ≤ cap) :
    (filled cap xs).length = cap := by
  rw [filled, List.length_append, List.length_map, List.length_replicate]
  omega

/-- The next slot is the first free one. -/
theorem store_filled {cap : ℕ} {xs : List α} (h : xs.length < cap) (x : α) :
    store (filled cap xs) xs.length (.ptr x) = some (filled cap (xs ++ [x])) := by
  have hfree : List.replicate (cap - xs.length) (Slot.null : Slot α) =
      Slot.null :: List.replicate (cap - (xs ++ [x]).length) Slot.null := by
    rw [List.length_append, List.length_singleton, ← List.replicate_succ]
    congr 1
    omega
  have hset : (filled cap xs).set xs.length (.ptr x) = filled cap (xs ++ [x]) := by
    unfold filled
    rw [hfree, List.set_append_right _ _ (List.length_map Slot.ptr).le, List.length_map,
      Nat.sub_self, List.set_cons_zero, List.map_append, List.append_assoc, List.map_singleton,
      List.singleton_append]
  rw [store, if_pos (by rw [filled_length (Nat.le_of_lt h)]; exact h), hset]

/-- An array that is full has no slot for another pointer. -/
theorem store_full {cap : ℕ} {xs : List α} (h : xs.length ≤ cap) {i : ℕ} (hi : cap ≤ i)
    (x : Slot α) : store (filled cap xs) i x = none := by
  rw [store, if_neg (by rw [filled_length h]; omega)]

theorem resized_filled_of_lt {cap : ℕ} {xs : List α} (h : xs.length < cap) :
    resized (filled cap xs) (xs.length + 1) = xs.map Slot.ptr ++ [Slot.null] := by
  have hfree : (List.replicate (cap - xs.length) (Slot.null : Slot α)).take 1 = [Slot.null] := by
    rw [List.take_replicate, Nat.min_eq_left (by omega), List.replicate_one]
  have hcut : xs.length + 1 = (xs.map Slot.ptr).length + 1 := by rw [List.length_map]
  rw [resized, filled_length (Nat.le_of_lt h), Nat.sub_eq_zero_of_le (by omega),
    List.replicate_zero, List.append_nil, filled, hcut, List.take_length_add_append, hfree]

theorem resized_filled_full (xs : List α) :
    resized (filled xs.length xs) (xs.length + 1) = xs.map Slot.ptr ++ [Slot.junk] := by
  rw [resized, filled_length le_rfl, Nat.add_sub_cancel_left, List.replicate_one, filled,
    Nat.sub_self, List.replicate_zero, List.append_nil,
    List.take_of_length_le (by rw [List.length_map]; omega)]

theorem walk_append (xs : List α) (rest : List (Slot α)) :
    walk (xs.map Slot.ptr ++ rest) = (walk rest).map (xs ++ ·) := by
  induction xs with
  | nil =>
    rw [List.map_nil, List.nil_append]
    exact (congrFun Option.map_id _).symm
  | cons x xs ih =>
    rw [List.map_cons, List.cons_append, walk, ih, Option.map_map]
    rfl

/-- The walk over an array that ends at null visits what it holds. -/
theorem walk_terminated (xs : List α) (rest : List (Slot α)) :
    walk (xs.map Slot.ptr ++ Slot.null :: rest) = some xs := by
  rw [walk_append, walk, Option.map_some, List.append_nil]

/-- An array of pointers and one last slot ends at null only if that slot is null. -/
theorem append_null_inj {xs ys : List α} {last : Slot α}
    (h : xs.map Slot.ptr ++ [last] = ys.map Slot.ptr ++ [Slot.null]) : last = Slot.null :=
  List.singleton_inj.mp (List.append_inj' h rfl).2

end MemoryLeak.SlotArray
