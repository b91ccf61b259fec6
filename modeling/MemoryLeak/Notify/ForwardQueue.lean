import MemoryLeak.Heap
import MemoryLeak.Runs
import MemoryLeak.Notify.Message
import Mathlib.Data.List.Induction

/-!
# The forward queue

`add_to_item_list`, the take at the start of `send_to_dst` and its walk over the
chain it took, on a heap of items, interleaved over any number of threads. A
critical section is one step; what a thread does outside of it is a step of its
own. What is pushed and taken, and by whom, is read off the schedule alone.
-/
namespace MemoryLeak.Notify
open MemoryLeak.CBytes MemoryLeak.Heap MemoryLeak.Runs

/-- A queued message: the block `hi->msg` and its length `hi->n_msg`. -/
structure FwdItem where
  msg : Bytes
  nMsg : ℕ
  size_eq : msg.length = nMsg

theorem FwdItem.ext_msg {a b : FwdItem} (h : a.msg = b.msg) : a = b := by
  have hn : a.nMsg = b.nMsg := by rw [← a.size_eq, ← b.size_eq, h]
  cases a
  cases b
  cases h
  cases hn
  rfl

/-- `MY_MALLOC(hi->msg, sz); memcpy(hi->msg, msg, sz); hi->n_msg = sz`. -/
def newItem (msg : Bytes) (sz : ℕ) (h : sz ≤ msg.length) : FwdItem :=
  ⟨msg.take sz, sz, by simp [h]⟩

/-- The item on the heap with its `next`. -/
structure Node where
  next : Option ℕ
  item : FwdItem

/-- Where a thread stands. -/
inductive Local where
  | idle
  /-- `hi` is allocated and filled, not yet linked. -/
  | filled (hi : ℕ)
  /-- `hi` is the next item of the batch taken, after the items read. -/
  | walking (hi : Option ℕ) (seen : List FwdItem)

def Local.pointer : Local → Option ℕ
  | idle => none
  | filled hi => some hi
  | walking hi _ => hi

structure QueueState where
  heap : ℕ → Option Node
  /-- The list head `*l`. -/
  head : Option ℕ
  threads : ℕ → Local

def QueueState.init : QueueState := ⟨fun _ => none, none, fun _ => .idle⟩

inductive QueueAction where
  /-- `MY_MALLOC` returns `a`, and the item is filled. -/
  | fill (a : ℕ) (msg : Bytes) (sz : ℕ) (h : sz ≤ msg.length)
  /-- The critical section of `add_to_item_list`. -/
  | link
  /-- The critical section of `send_to_dst`. -/
  | take
  /-- One turn of the loop of `send_to_dst`. -/
  | visit (clear : Bool)
  /-- The end of that loop, or a `break` of it. -/
  | leave

/-- A step of thread `t`. An action the thread is not ready for does nothing. Touching a dead
item has no outcome. -/
def queueStep (s : QueueState) : ℕ × QueueAction → Option QueueState
  | (t, .fill a msg sz h) =>
    match s.threads t with
    | .idle =>
      some { s with
        heap := Function.update s.heap a (some ⟨none, newItem msg sz h⟩)
        threads := Function.update s.threads t (.filled a) }
    | _ => some s
  | (t, .link) =>
    match s.threads t with
    | .filled hi =>
      (s.heap hi).map fun c =>
        { heap := Function.update s.heap hi
            (some (if s.head = none then c else { c with next := s.head }))
          head := some hi
          threads := Function.update s.threads t .idle }
    | _ => some s
  | (t, .take) =>
    match s.threads t with
    | .idle =>
      some { s with head := none, threads := Function.update s.threads t (.walking s.head []) }
    | _ => some s
  | (t, .visit clear) =>
    match s.threads t with
    | .walking (some hi) seen =>
      (s.heap hi).map fun c =>
        { s with
          heap := if clear then Function.update s.heap hi none else s.heap
          threads := Function.update s.threads t (.walking c.next (seen ++ [c.item])) }
    | _ => some s
  | (t, .leave) =>
    match s.threads t with
    | .walking _ _ => some { s with threads := Function.update s.threads t .idle }
    | _ => some s

/-- `MY_MALLOC` returns no address that is in use. -/
def MallocFresh (s : QueueState) : ℕ × QueueAction → Prop
  | (t, .fill a _ _ _) => s.threads t = .idle → s.heap a = none
  | _ => True

/-! ### Schedules -/

/-- The critical sections of a schedule. -/
inductive Call where
  | push (item : FwdItem)
  | take (t : ℕ)

/-- What a thread is about, as the schedule has it. -/
inductive Phase where
  | idle
  | filled (item : FwdItem)
  | walking

def scheduleStep (p : (ℕ → Phase) × List Call) : ℕ × QueueAction → (ℕ → Phase) × List Call
  | (t, .fill _ msg sz h) =>
    match p.1 t with
    | .idle => (Function.update p.1 t (.filled (newItem msg sz h)), p.2)
    | _ => p
  | (t, .link) =>
    match p.1 t with
    | .filled item => (Function.update p.1 t .idle, p.2 ++ [.push item])
    | _ => p
  | (t, .take) =>
    match p.1 t with
    | .idle => (Function.update p.1 t .walking, p.2 ++ [.take t])
    | _ => p
  | (_, .visit _) => p
  | (t, .leave) =>
    match p.1 t with
    | .walking => (Function.update p.1 t .idle, p.2)
    | _ => p

/-- The pushes and takes of a schedule, in order. -/
def callsOf (es : List (ℕ × QueueAction)) : List Call :=
  (es.foldl scheduleStep (fun _ => .idle, [])).2

/-- All items pushed, in order. -/
def pushed (calls : List Call) : List FwdItem :=
  calls.filterMap fun
    | .push item => some item
    | .take _ => none

/-- The items pushed since the last take, newest first. -/
def sinceTake (calls : List Call) : List FwdItem :=
  calls.foldl (fun acc e => match e with
    | .push item => item :: acc
    | .take _ => []) []

/-- What a take at position `i` takes, with its thread: what was pushed since the take before it. -/
def batchAt (calls : List Call) (i : ℕ) : Option (ℕ × List FwdItem) :=
  match calls[i]? with
  | some (Call.take t) => some (t, sinceTake (calls.take i))
  | _ => none

/-- The batches taken, in order. -/
def batches (calls : List Call) : List (ℕ × List FwdItem) :=
  (List.range calls.length).filterMap (batchAt calls)

/-- The last batch that thread `t` has taken. -/
def lastBatch (calls : List Call) (t : ℕ) : Option (List FwdItem) :=
  ((batches calls).filter fun b => b.1 = t).getLast?.map Prod.snd

section Calls

variable (calls : List Call)

@[simp] theorem sinceTake_push (item : FwdItem) :
    sinceTake (calls ++ [.push item]) = item :: sinceTake calls := by simp [sinceTake]

@[simp] theorem sinceTake_take (t : ℕ) : sinceTake (calls ++ [.take t]) = [] := by
  simp [sinceTake]

theorem batches_append (c : Call) :
    batches (calls ++ [c]) = batches calls ++ (batchAt (calls ++ [c]) calls.length).toList := by
  have hbefore : ∀ i ∈ List.range calls.length, batchAt (calls ++ [c]) i = batchAt calls i := by
    intro i hi
    rw [List.mem_range] at hi
    rw [batchAt, batchAt, List.getElem?_append_left hi, List.take_append_of_le_length hi.le]
  rw [batches, List.length_append, List.length_singleton, List.range_succ, List.filterMap_append,
    List.filterMap_congr hbefore]
  congr 1

@[simp] theorem batches_push (item : FwdItem) :
    batches (calls ++ [.push item]) = batches calls := by
  simp [batches_append, batchAt]

@[simp] theorem batches_take (t : ℕ) :
    batches (calls ++ [.take t]) = batches calls ++ [(t, sinceTake calls)] := by
  simp [batches_append, batchAt]

@[simp] theorem lastBatch_push (item : FwdItem) (t : ℕ) :
    lastBatch (calls ++ [.push item]) t = lastBatch calls t := by
  rw [lastBatch, batches_push]
  rfl

theorem lastBatch_take (t u : ℕ) : lastBatch (calls ++ [.take t]) u =
    if t = u then some (sinceTake calls) else lastBatch calls u := by
  rw [lastBatch, batches_take, List.filter_append]
  split_ifs with h
  · simp [h]
  · simp [h, lastBatch]

/-- The batches conserve the items: unrolled in push order they and what was pushed since the
last take are all that was pushed. -/
theorem batches_conserve :
    (batches calls).flatMap (fun b => b.2.reverse) ++ (sinceTake calls).reverse = pushed calls := by
  induction calls using List.reverseRecOn with
  | nil => rfl
  | append_singleton calls c ih =>
    cases c with
    | push item =>
      have hpushed : pushed (calls ++ [.push item]) = pushed calls ++ [item] := by simp [pushed]
      rw [sinceTake_push, List.reverse_cons, ← List.append_assoc, batches_push, ih, hpushed]
    | take t =>
      have hpushed : pushed (calls ++ [.take t]) = pushed calls := by simp [pushed]
      rw [sinceTake_take, batches_take, hpushed, ← ih]
      simp

end Calls

/-! ### Every interleaving -/

/-- The owners of chains are the list itself and the threads. -/
def rootOf (head : Option ℕ) (threads : ℕ → Local) : Option ℕ → Option ℕ
  | none => head
  | some t => (threads t).pointer

def itemsOf (queue : List FwdItem) (rest : ℕ → List FwdItem) : Option ℕ → List FwdItem
  | none => queue
  | some t => rest t

theorem rootOf_head (head head' : Option ℕ) (threads : ℕ → Local) :
    rootOf head' threads = Function.update (rootOf head threads) none head' := by
  funext o
  cases o <;> simp [rootOf]

theorem rootOf_thread (head : Option ℕ) (threads : ℕ → Local) (t : ℕ) (l : Local) :
    rootOf head (Function.update threads t l) =
      Function.update (rootOf head threads) (some t) l.pointer := by
  funext o
  cases o with
  | none => simp [rootOf]
  | some u => by_cases hu : u = t <;> simp [rootOf, hu]

theorem itemsOf_queue (queue queue' : List FwdItem) (rest : ℕ → List FwdItem) :
    itemsOf queue' rest = Function.update (itemsOf queue rest) none queue' := by
  funext o
  cases o <;> simp [itemsOf]

theorem itemsOf_thread (queue : List FwdItem) (rest : ℕ → List FwdItem) (t : ℕ)
    (items : List FwdItem) : itemsOf queue (Function.update rest t items) =
      Function.update (itemsOf queue rest) (some t) items := by
  funext o
  cases o with
  | none => simp [itemsOf]
  | some u => by_cases hu : u = t <;> simp [itemsOf, hu]

/-- A thread does what the schedule has it do; `rest` stands on the chain it holds. -/
def AsScheduled (calls : List Call) (t : ℕ) (phase : Phase) (rest : List FwdItem) : Local → Prop
  | .idle => phase = .idle ∧ rest = []
  | .filled _ => ∃ item, phase = .filled item ∧ rest = [item]
  | .walking _ seen => phase = .walking ∧ lastBatch calls t = some (seen ++ rest)

/-- The chains on the heap hold what the schedule has pushed and not yet been read. -/
def QueueInv (s : QueueState) (p : (ℕ → Phase) × List Call) : Prop :=
  ∃ rest : ℕ → List FwdItem,
    Holds Node.next Node.item s.heap (rootOf s.head s.threads) (itemsOf (sinceTake p.2) rest) ∧
      ∀ t, AsScheduled p.2 t (p.1 t) (rest t) (s.threads t)

theorem queueInv_init : QueueInv QueueState.init (fun _ => .idle, []) := by
  refine ⟨fun _ => [], ⟨fun _ => [], ?_, by simp⟩, fun _ => ⟨rfl, rfl⟩⟩
  intro o
  cases o <;> simp [QueueState.init, rootOf, itemsOf, Local.pointer, Linked, cellsAt, sinceTake]

/-- One thread goes on, and a push or the take of a thread that is not walking changes nothing
for the others. -/
theorem agrees_update {calls calls' : List Call} {phases : ℕ → Phase} {rest : ℕ → List FwdItem}
    {threads : ℕ → Local} (h : ∀ u, AsScheduled calls u (phases u) (rest u) (threads u)) {t : ℕ}
    {phase : Phase} {items : List FwdItem} {l : Local} (ht : AsScheduled calls' t phase items l)
    (hcalls : ∀ u, u ≠ t → lastBatch calls' u = lastBatch calls u) :
    ∀ u, AsScheduled calls' u (Function.update phases t phase u) (Function.update rest t items u)
      (Function.update threads t l u) := by
  intro u
  by_cases hu : u = t
  · subst hu
    simpa only [Function.update_self] using ht
  · simp only [Function.update_of_ne hu]
    have hu' := h u
    cases hl : threads u with
    | idle =>
      rw [hl] at hu'
      exact hu'
    | filled hi =>
      rw [hl] at hu'
      exact hu'
    | walking hi seen =>
      rw [hl] at hu'
      exact ⟨hu'.1, (hcalls u hu).trans hu'.2⟩

section Steps

variable {s : QueueState} {phases : ℕ → Phase} {calls : List Call} {t : ℕ}

/-- A thread without a chain gets one new cell. -/
theorem queueInv_fill (hs : QueueInv s (phases, calls)) {a : ℕ} (ha : s.heap a = none)
    (item : FwdItem) :
    QueueInv { s with
      heap := Function.update s.heap a (some ⟨none, item⟩)
      threads := Function.update s.threads t (.filled a) }
      (Function.update phases t (.filled item), calls) := by
  obtain ⟨rest, hholds, hagrees⟩ := hs
  refine ⟨Function.update rest t [item], ?_,
    agrees_update hagrees ⟨item, rfl, rfl⟩ fun _ _ => rfl⟩
  rw [rootOf_thread, itemsOf_thread]
  exact hholds.alloc ha rfl

/-- The critical section of a push: the filled node goes in front of the list. -/
theorem queueInv_link (hs : QueueInv s (phases, calls)) {hi : ℕ} (ht : s.threads t = .filled hi) :
    ∃ item s', phases t = .filled item ∧ queueStep s (t, .link) = some s' ∧
      QueueInv s' (Function.update phases t .idle, calls ++ [.push item]) := by
  obtain ⟨rest, hholds, hagrees⟩ := hs
  have htt := hagrees t
  rw [ht] at htt
  obtain ⟨item, hphase, hrest⟩ := htt
  have hroot : rootOf s.head s.threads (some t) = some hi := by simp [rootOf, ht, Local.pointer]
  obtain ⟨c, hcell, hend, hitem⟩ := hholds.single hroot hrest
  subst hitem
  -- with an empty list the cleared `next` is already what the other branch stores
  have hnode : (if s.head = none then c else { c with next := s.head }) =
      { c with next := s.head } := by
    split_ifs with hnull
    · rw [hnull, ← hend]
    · rfl
  refine ⟨c.item, _, hphase, by simp only [queueStep, ht, hcell, Option.map_some, hnode]; rfl,
    Function.update rest t [], ?_, ?_⟩
  · have hnext : ({ c with next := s.head } : Node).next = rootOf s.head s.threads none := rfl
    have hpush := hholds.push (by simp) hroot hcell hend hnext
    dsimp only
    rw [sinceTake_push, rootOf_head s.head, rootOf_thread, itemsOf_queue (sinceTake calls),
      itemsOf_thread]
    exact hpush
  · have hidle : AsScheduled (calls ++ [.push c.item]) t .idle [] .idle := ⟨rfl, rfl⟩
    exact agrees_update hagrees hidle fun u _ => lastBatch_push calls c.item u

/-- The critical section of a drain: the whole list goes to the thread. -/
theorem queueInv_take (hs : QueueInv s (phases, calls)) :
    QueueInv { s with head := none, threads := Function.update s.threads t (.walking s.head []) }
      (Function.update phases t .walking, calls ++ [.take t]) := by
  obtain ⟨rest, hholds, hagrees⟩ := hs
  refine ⟨Function.update rest t (sinceTake calls), ?_, agrees_update hagrees ?_ ?_⟩
  · have hmove := hholds.move (i := some t) (j := none)
    dsimp only
    rw [sinceTake_take, rootOf_thread, itemsOf_thread, rootOf_head s.head,
      itemsOf_queue (sinceTake calls)]
    exact hmove
  · exact ⟨rfl, by rw [lastBatch_take, if_pos rfl, List.nil_append]⟩
  · intro u hu
    rw [lastBatch_take, if_neg (Ne.symm hu)]

/-- A walk ends or is abandoned. -/
theorem queueInv_idle (hs : QueueInv s (phases, calls)) (t : ℕ) :
    QueueInv { s with threads := Function.update s.threads t .idle }
      (Function.update phases t .idle, calls) := by
  obtain ⟨rest, hholds, hagrees⟩ := hs
  refine ⟨Function.update rest t [], ?_, agrees_update hagrees ⟨rfl, rfl⟩ fun _ _ => rfl⟩
  rw [rootOf_thread, itemsOf_thread]
  exact hholds.drop

/-- One turn of the walk reads the next item of the batch, and may free it. -/
theorem queueInv_visit (hs : QueueInv s (phases, calls)) {hi : ℕ} {seen : List FwdItem}
    (ht : s.threads t = .walking (some hi) seen) (clear : Bool) :
    ∃ s', queueStep s (t, .visit clear) = some s' ∧ QueueInv s' (phases, calls) := by
  obtain ⟨rest, hholds, hagrees⟩ := hs
  have htt := hagrees t
  rw [ht] at htt
  obtain ⟨hphase, hbatch⟩ := htt
  have hroot : rootOf s.head s.threads (some t) = some hi := by simp [rootOf, ht, Local.pointer]
  obtain ⟨c, rest', hcell, hvals, hpop⟩ := hholds.pop hroot
  have hvals : rest t = c.item :: rest' := hvals
  refine ⟨_, by simp only [queueStep, ht, hcell, Option.map_some]; rfl,
    Function.update rest t rest', ?_, ?_⟩
  · simp only [rootOf_thread, itemsOf_thread]
    cases clear with
    | true => exact hpop none
    | false =>
      have hkeep := hpop (some c)
      rwa [← hcell, Function.update_eq_self] at hkeep
  · have hwalk : AsScheduled calls t (phases t) rest' (.walking c.next (seen ++ [c.item])) := by
      refine ⟨hphase, ?_⟩
      rw [hbatch, hvals, List.append_assoc, List.singleton_append]
    have hnext := agrees_update hagrees hwalk fun _ _ => rfl
    rwa [Function.update_eq_self] at hnext

/-- Every step of every thread is defined and keeps the invariant. -/
theorem queueStep_inv {p : (ℕ → Phase) × List Call} (hs : QueueInv s p) (e : ℕ × QueueAction)
    (hfresh : MallocFresh s e) :
    ∃ s', queueStep s e = some s' ∧ QueueInv s' (scheduleStep p e) := by
  obtain ⟨phases, calls⟩ := p
  obtain ⟨t, act⟩ := e
  have hagrees : ∃ rest, AsScheduled calls t (phases t) rest (s.threads t) := by
    obtain ⟨rest, -, hagrees⟩ := hs
    exact ⟨rest t, hagrees t⟩
  obtain ⟨rest, hagrees⟩ := hagrees
  cases act with
  | fill a msg sz h =>
    cases ht : s.threads t with
    | idle =>
      rw [ht] at hagrees
      refine ⟨_, by simp only [queueStep, ht]; rfl, ?_⟩
      simp only [scheduleStep, hagrees.1]
      exact queueInv_fill hs (hfresh ht) (newItem msg sz h)
    | filled hi =>
      rw [ht] at hagrees
      obtain ⟨item, hphase, -⟩ := hagrees
      exact ⟨s, by simp only [queueStep, ht], by simpa only [scheduleStep, hphase] using hs⟩
    | walking hi seen =>
      rw [ht] at hagrees
      exact ⟨s, by simp only [queueStep, ht], by simpa only [scheduleStep, hagrees.1] using hs⟩
  | link =>
    cases ht : s.threads t with
    | filled hi =>
      obtain ⟨item, s', hphase, hstep, hinv⟩ := queueInv_link hs ht
      exact ⟨s', hstep, by simpa only [scheduleStep, hphase] using hinv⟩
    | idle =>
      rw [ht] at hagrees
      exact ⟨s, by simp only [queueStep, ht], by simpa only [scheduleStep, hagrees.1] using hs⟩
    | walking hi seen =>
      rw [ht] at hagrees
      exact ⟨s, by simp only [queueStep, ht], by simpa only [scheduleStep, hagrees.1] using hs⟩
  | take =>
    cases ht : s.threads t with
    | idle =>
      rw [ht] at hagrees
      refine ⟨_, by simp only [queueStep, ht]; rfl, ?_⟩
      simp only [scheduleStep, hagrees.1]
      exact queueInv_take hs
    | filled hi =>
      rw [ht] at hagrees
      obtain ⟨item, hphase, -⟩ := hagrees
      exact ⟨s, by simp only [queueStep, ht], by simpa only [scheduleStep, hphase] using hs⟩
    | walking hi seen =>
      rw [ht] at hagrees
      exact ⟨s, by simp only [queueStep, ht], by simpa only [scheduleStep, hagrees.1] using hs⟩
  | visit clear =>
    cases ht : s.threads t with
    | idle => exact ⟨s, by simp only [queueStep, ht], hs⟩
    | filled hi => exact ⟨s, by simp only [queueStep, ht], hs⟩
    | walking hi seen =>
      cases hi with
      | none => exact ⟨s, by simp only [queueStep, ht], hs⟩
      | some hi => exact queueInv_visit hs ht clear
  | leave =>
    cases ht : s.threads t with
    | walking hi seen =>
      rw [ht] at hagrees
      refine ⟨_, by simp only [queueStep, ht]; rfl, ?_⟩
      simp only [scheduleStep, hagrees.1]
      exact queueInv_idle hs t
    | idle =>
      rw [ht] at hagrees
      exact ⟨s, by simp only [queueStep, ht], by simpa only [scheduleStep, hagrees.1] using hs⟩
    | filled hi =>
      rw [ht] at hagrees
      obtain ⟨item, hphase, -⟩ := hagrees
      exact ⟨s, by simp only [queueStep, ht], by simpa only [scheduleStep, hphase] using hs⟩

end Steps

theorem queue_run (es : List (ℕ × QueueAction)) {s : QueueState} {p : (ℕ → Phase) × List Call}
    (hs : QueueInv s p) (hfresh : AllSteps queueStep MallocFresh s es) :
    ∃ s', run queueStep s es = some s' ∧ QueueInv s' (es.foldl scheduleStep p) := by
  induction es generalizing s p with
  | nil => exact ⟨s, rfl, hs⟩
  | cons e es ih =>
    obtain ⟨s₁, hstep, hs₁⟩ := queueStep_inv hs e hfresh.1
    obtain ⟨s', hrun, hs'⟩ := ih hs₁ (hfresh.2 s₁ hstep)
    exact ⟨s', by rw [run_cons, hstep, Option.bind_some, hrun], hs'⟩

/-- Every item pushed is in one batch or still on the list, with its bytes. -/
structure Accounted (s : QueueState) (calls : List Call) : Prop where
  /-- The list holds what was pushed since the last take, newest first. -/
  queued : ∃ cells, readChain Node.next s.heap (sinceTake calls).length s.head = some cells ∧
    cells.map Node.item = sinceTake calls
  conserved :
    (batches calls).flatMap (fun b => b.2.reverse) ++ (sinceTake calls).reverse = pushed calls
  /-- A walk reads the batch its thread has taken from the heap, item by item. -/
  walks : ∀ t hi seen, s.threads t = .walking hi seen →
    ∃ rest cells, lastBatch calls t = some (seen ++ rest) ∧
      readChain Node.next s.heap rest.length hi = some cells ∧ cells.map Node.item = rest

/-- Every interleaving of pushes, takes and walks is defined and accounts for every item that it
pushes. -/
theorem forward_queue_accounted (es : List (ℕ × QueueAction))
    (hfresh : AllSteps queueStep MallocFresh QueueState.init es) :
    ∃ s, run queueStep QueueState.init es = some s ∧ Accounted s (callsOf es) := by
  obtain ⟨s, hrun, rest, hholds, hagrees⟩ := queue_run es queueInv_init hfresh
  refine ⟨s, hrun, hholds.read (i := none) le_rfl, batches_conserve (callsOf es), ?_⟩
  intro t hi seen ht
  have htt := hagrees t
  rw [ht] at htt
  obtain ⟨cells, hread, hcells⟩ := hholds.read (i := some t) le_rfl
  refine ⟨rest t, cells, htt.2, ?_, hcells⟩
  have hroot : rootOf s.head s.threads (some t) = hi := by simp [rootOf, ht, Local.pointer]
  rw [hroot] at hread
  exact hread

/-- Two pushes, a take, a turn of its walk that frees an item, and a push at that address. -/
theorem forward_queue_accounted_sample :
    let item := fun b : UInt8 => newItem [b] 1 (Nat.le_refl 1)
    let es : List (ℕ × QueueAction) :=
      [(0, .fill 5 [97] 1 (Nat.le_refl 1)), (0, .link), (0, .fill 9 [98] 1 (Nat.le_refl 1)),
        (0, .link), (1, .take), (1, .visit true), (0, .fill 9 [99] 1 (Nat.le_refl 1)), (0, .link)]
    pushed (callsOf es) = [item 97, item 98, item 99] ∧
      batches (callsOf es) = [(1, [item 98, item 97])] ∧ sinceTake (callsOf es) = [item 99] ∧
      ∃ s, run queueStep QueueState.init es = some s ∧ Accounted s (callsOf es) := by
  intro item es
  refine ⟨rfl, rfl, rfl, forward_queue_accounted es ?_⟩
  refine ⟨fun _ => rfl, fun s hs => ?_⟩
  obtain rfl := Option.some.inj hs
  refine ⟨trivial, fun s hs => ?_⟩
  obtain rfl := Option.some.inj hs
  refine ⟨fun _ => rfl, fun s hs => ?_⟩
  obtain rfl := Option.some.inj hs
  refine ⟨trivial, fun s hs => ?_⟩
  obtain rfl := Option.some.inj hs
  refine ⟨trivial, fun s hs => ?_⟩
  obtain rfl := Option.some.inj hs
  refine ⟨trivial, fun s hs => ?_⟩
  obtain rfl := Option.some.inj hs
  refine ⟨fun _ => rfl, fun s hs => ?_⟩
  obtain rfl := Option.some.inj hs
  exact ⟨trivial, fun s hs => trivial⟩

end MemoryLeak.Notify
