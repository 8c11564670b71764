import Mathlib.Data.Finset.Card

/-!
# The priority work queue (`util/workqueue/priority_queue.go`)

`PriorityType` keeps one bucket (`priorityQueue`) per priority, the `dirty` set of items that
need processing and the `processing` set of items held by consumers. Each locked section of the
Go code is one function here, from the state before the lock to the state at the unlock:

* `add`, `done` and `shutdown` also return what they do to the condition variable (`Wake`);
* `get` is one pass of `Get`'s loop under the lock: it waits, returns `(nil, true)`, or takes
  the head of the highest non-empty bucket (`GetStep`);
* `setDrain`, `lenNoLock`, `isProcessing`, `shouldDrain` and `waitForProcessing` are the rest.

`getPriorityFunc` may answer differently from one call to the next, so `add` and `done` take
the value it returned in that call (`priority`) rather than the function. Metrics, the clock
and `updateUnfinishedWorkLoop` are not modelled: no locked section reads them.

The lemmas relate `lenNoLock` and `Get`'s scan to the buckets in `[minPriority, maxPriority]`
(`lenNoLock_eq_zero_iff`, `get_spec`): a pass of `Get` waits or shuts down exactly when those
buckets are empty, and otherwise takes the head of the highest of them.
-/

namespace ClientGo.Workqueue

/-- The lowest priority; the higher the priority value, the higher the priority. -/
def defaultMinPriority : Int := 0

/-- The highest priority of `NewPriority()`. -/
def defaultMaxPriority : Int := 12

/-- The fields of `PriorityType` that the locked sections read and write. -/
structure PriorityType (α : Type) where
  minPriority : Int
  maxPriority : Int
  priorityQueue : Int → List α
  dirty : Finset α
  processing : Finset α
  shuttingDown : Bool
  drain : Bool

/-- What a locked section does to the condition variable before it unlocks. -/
inductive Wake where
  | none
  | signal
  | broadcast
  deriving DecidableEq, Repr

/-- `clipInt(v, min, max)`. -/
def clipInt (v min max : Int) : Int :=
  if v < min then min else if v > max then max else v

theorem clipInt_mem {v min max : Int} (h : min ≤ max) :
    min ≤ clipInt v min max ∧ clipInt v min max ≤ max := by
  unfold clipInt; split_ifs <;> omega

variable {α : Type}

/-- `newPriorityQueue(maxPriority, f, ...)`: empty buckets and sets. -/
def newPriorityQueue (maxPriority : Int) : PriorityType α where
  minPriority := defaultMinPriority
  maxPriority := maxPriority
  priorityQueue := fun _ => []
  dirty := ∅
  processing := ∅
  shuttingDown := false
  drain := false

/-- The sum of the lengths of `n` buckets from `i` upward: the loop of `lenNoLock`. -/
def lenFrom (pq : Int → List α) (i : Int) : Nat → Nat
  | 0 => 0
  | n + 1 => (pq i).length + lenFrom pq (i + 1) n

/-- The loop of `Get` that looks for the first non-empty bucket among `n` buckets from `i`
downward. -/
def scanFrom (pq : Int → List α) (i : Int) : Nat → Option Int
  | 0 => none
  | n + 1 => if 0 < (pq i).length then some i else scanFrom pq (i - 1) n

namespace PriorityType

/-- The number of buckets from `minPriority` to `maxPriority`. -/
def span (q : PriorityType α) : Nat := (q.maxPriority - q.minPriority + 1).toNat

/-- `q.priorityQueue[p] = append(q.priorityQueue[p], item)`. -/
def enqueue (q : PriorityType α) (p : Int) (item : α) : PriorityType α :=
  { q with priorityQueue := Function.update q.priorityQueue p (q.priorityQueue p ++ [item]) }

/-- `lenNoLock`: the number of items in the buckets `minPriority..maxPriority`. -/
def lenNoLock (q : PriorityType α) : Nat := lenFrom q.priorityQueue q.minPriority q.span

section Locked

variable [DecidableEq α]

/-- `Add(item)`, where `getPriorityFunc(item)` returned `priority`. -/
def add (q : PriorityType α) (item : α) (priority : Int) : PriorityType α × Wake :=
  if q.shuttingDown then (q, .none)
  else if item ∈ q.dirty then (q, .none)
  else
    let q := { q with dirty := insert item q.dirty }
    if item ∈ q.processing then (q, .none)
    else (q.enqueue (clipInt priority q.minPriority q.maxPriority) item, .signal)

/-- What one pass of `Get`'s loop does under the lock. -/
inductive GetStep (α : Type) where
  /-- `cond.Wait()`: no item in range and not shutting down. -/
  | wait
  /-- `return nil, true`. -/
  | shutdown
  /-- `return item, false`, leaving the state `q`. -/
  | item (x : α) (q : PriorityType α)

/-- One pass of `Get` under the lock. The empty-bucket case of the `match` is where Go would
index an empty slice; it is unreachable (`get_spec`). -/
def get (q : PriorityType α) : GetStep α :=
  if q.lenNoLock = 0 then
    if q.shuttingDown then .shutdown else .wait
  else
    let currentPriority :=
      (scanFrom q.priorityQueue q.maxPriority q.span).getD (q.maxPriority + 1)
    match q.priorityQueue currentPriority with
    | [] => .wait
    | x :: rest =>
      .item x { q with
        priorityQueue := Function.update q.priorityQueue currentPriority rest
        processing := insert x q.processing
        dirty := q.dirty.erase x }

/-- `Done(item)`, where `getPriorityFunc(item)` returned `priority`. Unlike `add`, the
priority is not clipped. -/
def done (q : PriorityType α) (item : α) (priority : Int) : PriorityType α × Wake :=
  let q := { q with processing := q.processing.erase item }
  if item ∈ q.dirty then (q.enqueue priority item, .signal)
  else if q.processing.card = 0 then (q, .signal)
  else (q, .none)

end Locked

/-- `setDrain(shouldDrain)`. -/
def setDrain (q : PriorityType α) (shouldDrain : Bool) : PriorityType α :=
  { q with drain := shouldDrain }

/-- `shutdown()`: set `shuttingDown` and broadcast. -/
def shutdown (q : PriorityType α) : PriorityType α × Wake :=
  ({ q with shuttingDown := true }, .broadcast)

/-- `isProcessing()`. -/
def isProcessing (q : PriorityType α) : Bool := q.processing.card ≠ 0

/-- `shouldDrain()`. -/
def shouldDrain (q : PriorityType α) : Bool := q.drain

/-- `waitForProcessing()`: `true` when it calls `cond.Wait()`, `false` when it returns at
once because nothing is being processed. -/
def waitForProcessing (q : PriorityType α) : Bool := q.processing.card ≠ 0

/-! ## Field lemmas -/

@[simp] theorem enqueue_dirty (q : PriorityType α) (p : Int) (x : α) :
    (q.enqueue p x).dirty = q.dirty := rfl

@[simp] theorem enqueue_processing (q : PriorityType α) (p : Int) (x : α) :
    (q.enqueue p x).processing = q.processing := rfl

@[simp] theorem enqueue_shuttingDown (q : PriorityType α) (p : Int) (x : α) :
    (q.enqueue p x).shuttingDown = q.shuttingDown := rfl

@[simp] theorem enqueue_minPriority (q : PriorityType α) (p : Int) (x : α) :
    (q.enqueue p x).minPriority = q.minPriority := rfl

@[simp] theorem enqueue_maxPriority (q : PriorityType α) (p : Int) (x : α) :
    (q.enqueue p x).maxPriority = q.maxPriority := rfl

theorem mem_enqueue {q : PriorityType α} {p p' : Int} {x y : α} :
    y ∈ (q.enqueue p x).priorityQueue p' ↔ y ∈ q.priorityQueue p' ∨ (p' = p ∧ y = x) := by
  unfold enqueue
  by_cases h : p' = p
  · subst h; simp
  · simp [Function.update_noteq h, h]

@[simp] theorem setDrain_priorityQueue (q : PriorityType α) (b : Bool) :
    (q.setDrain b).priorityQueue = q.priorityQueue := rfl

@[simp] theorem setDrain_dirty (q : PriorityType α) (b : Bool) :
    (q.setDrain b).dirty = q.dirty := rfl

@[simp] theorem setDrain_processing (q : PriorityType α) (b : Bool) :
    (q.setDrain b).processing = q.processing := rfl

@[simp] theorem setDrain_shuttingDown (q : PriorityType α) (b : Bool) :
    (q.setDrain b).shuttingDown = q.shuttingDown := rfl

@[simp] theorem setDrain_drain (q : PriorityType α) (b : Bool) : (q.setDrain b).drain = b := rfl

@[simp] theorem setDrain_minPriority (q : PriorityType α) (b : Bool) :
    (q.setDrain b).minPriority = q.minPriority := rfl

@[simp] theorem setDrain_maxPriority (q : PriorityType α) (b : Bool) :
    (q.setDrain b).maxPriority = q.maxPriority := rfl

@[simp] theorem setDrain_lenNoLock (q : PriorityType α) (b : Bool) :
    (q.setDrain b).lenNoLock = q.lenNoLock := rfl

@[simp] theorem shutdown_fst (q : PriorityType α) :
    q.shutdown.1 = { q with shuttingDown := true } := rfl

@[simp] theorem shutdown_snd (q : PriorityType α) : q.shutdown.2 = .broadcast := rfl

/-! ## `lenNoLock` and the scan of `Get` -/

theorem lenFrom_eq_zero_iff {pq : Int → List α} {i : Int} {n : Nat} :
    lenFrom pq i n = 0 ↔ ∀ k < n, pq (i + k) = [] := by
  induction n generalizing i with
  | zero => simp [lenFrom]
  | succ n ih =>
    simp only [lenFrom, Nat.add_eq_zero, List.length_eq_zero, ih]
    constructor
    · rintro ⟨h0, hs⟩ k hk
      cases k with
      | zero => simpa using h0
      | succ k => simpa [add_assoc, add_comm (1 : Int)] using hs k (by omega)
    · intro h
      refine ⟨by simpa using h 0 (by omega), fun k hk => ?_⟩
      simpa [add_assoc, add_comm (1 : Int)] using h (k + 1) (by omega)

theorem scanFrom_some {pq : Int → List α} {i j : Int} {n : Nat}
    (h : scanFrom pq i n = some j) :
    i - n < j ∧ j ≤ i ∧ pq j ≠ [] ∧ ∀ j', j < j' → j' ≤ i → pq j' = [] := by
  induction n generalizing i with
  | zero => simp [scanFrom] at h
  | succ n ih =>
    simp only [scanFrom] at h
    split at h
    · rename_i hi
      simp only [Option.some.injEq] at h
      subst h
      exact ⟨by omega, le_refl _, fun e => by simp [e] at hi, fun j' h1 h2 => by omega⟩
    · rename_i hi
      obtain ⟨h1, h2, h3, h4⟩ := ih h
      refine ⟨by omega, by omega, h3, fun j' hj hj' => ?_⟩
      rcases lt_or_eq_of_le hj' with hlt | rfl
      · exact h4 j' hj (by omega)
      · simpa using hi

theorem scanFrom_none {pq : Int → List α} {i : Int} {n : Nat}
    (h : scanFrom pq i n = none) : ∀ k < n, pq (i - k) = [] := by
  induction n generalizing i with
  | zero => intro k hk; omega
  | succ n ih =>
    simp only [scanFrom] at h
    split at h
    · cases h
    · rename_i hi
      intro k hk
      cases k with
      | zero => simpa using hi
      | succ k => simpa [sub_sub, add_comm (1 : Int)] using ih h k (by omega)

/-- `lenNoLock` is zero exactly when every bucket in `[minPriority, maxPriority]` is empty. -/
theorem lenNoLock_eq_zero_iff {q : PriorityType α} :
    q.lenNoLock = 0 ↔ ∀ p, q.minPriority ≤ p → p ≤ q.maxPriority → q.priorityQueue p = [] := by
  unfold lenNoLock span
  rw [lenFrom_eq_zero_iff]
  constructor
  · intro h p h1 h2
    have hp : q.minPriority + ((p - q.minPriority).toNat : Int) = p := by omega
    have := h (p - q.minPriority).toNat (by omega)
    rwa [hp] at this
  · intro h k hk
    exact h _ (by omega) (by omega)

section Locked

variable [DecidableEq α]

/-- `add` appends the item at its clipped priority exactly when the queue is not shutting down
and the item is neither dirty nor being processed. -/
theorem add_priorityQueue (q : PriorityType α) (x : α) (p : Int) :
    (q.add x p).1.priorityQueue =
      if q.shuttingDown = false ∧ x ∉ q.dirty ∧ x ∉ q.processing then
        (q.enqueue (clipInt p q.minPriority q.maxPriority) x).priorityQueue
      else q.priorityQueue := by
  simp only [add]
  split_ifs <;> first | rfl | simp_all

@[simp] theorem add_minPriority (q : PriorityType α) (x : α) (p : Int) :
    (q.add x p).1.minPriority = q.minPriority := by
  simp only [add]; split_ifs <;> rfl

@[simp] theorem add_maxPriority (q : PriorityType α) (x : α) (p : Int) :
    (q.add x p).1.maxPriority = q.maxPriority := by
  simp only [add]; split_ifs <;> rfl

/-- `done` appends the item, at the priority it is given, exactly when the item is dirty. -/
theorem done_priorityQueue (q : PriorityType α) (x : α) (p : Int) :
    (q.done x p).1.priorityQueue =
      if x ∈ q.dirty then (q.enqueue p x).priorityQueue else q.priorityQueue := by
  simp only [done]; split_ifs <;> rfl

@[simp] theorem done_minPriority (q : PriorityType α) (x : α) (p : Int) :
    (q.done x p).1.minPriority = q.minPriority := by
  simp only [done]; split_ifs <;> rfl

@[simp] theorem done_maxPriority (q : PriorityType α) (x : α) (p : Int) :
    (q.done x p).1.maxPriority = q.maxPriority := by
  simp only [done]; split_ifs <;> rfl

end Locked

/-- Replacing bucket `p` changes the count of the buckets in a window by the difference of the
two lengths, when `p` lies in the window. -/
theorem lenFrom_update (pq : Int → List α) (p : Int) (l : List α) (i : Int) (n : Nat) :
    lenFrom (Function.update pq p l) i n + (if i ≤ p ∧ p < i + n then (pq p).length else 0) =
      lenFrom pq i n + (if i ≤ p ∧ p < i + n then l.length else 0) := by
  induction n generalizing i with
  | zero => simp only [lenFrom]; split_ifs <;> omega
  | succ n ih =>
    have ih := ih (i + 1)
    simp only [lenFrom]
    by_cases hp : i = p
    · subst hp
      simp only [Function.update_same] at ih ⊢
      rw [if_neg (by omega)] at ih
      rw [if_pos (by omega), if_pos (by omega)]
      rw [if_neg (by omega), Nat.add_zero, Nat.add_zero] at ih
      omega
    · rw [Function.update_noteq hp]
      by_cases hw : i + 1 ≤ p ∧ p < i + 1 + n
      · rw [if_pos hw, if_pos hw] at ih
        rw [if_pos (by omega), if_pos (by omega)]
        omega
      · rw [if_neg hw, if_neg hw] at ih
        rw [if_neg (by omega), if_neg (by omega)]
        omega

/-- `lenNoLock` reads only the buckets and the range. -/
theorem lenNoLock_congr {q q' : PriorityType α} (hb : q'.priorityQueue = q.priorityQueue)
    (hmin : q'.minPriority = q.minPriority) (hmax : q'.maxPriority = q.maxPriority) :
    q'.lenNoLock = q.lenNoLock := by
  simp only [lenNoLock, span, hb, hmin, hmax]

/-- Appending to one bucket adds at most one item in range. -/
theorem lenNoLock_enqueue_le (q : PriorityType α) (p : Int) (x : α) :
    (q.enqueue p x).lenNoLock ≤ q.lenNoLock + 1 := by
  have := lenFrom_update q.priorityQueue p (q.priorityQueue p ++ [x]) q.minPriority q.span
  show lenFrom (Function.update q.priorityQueue p (q.priorityQueue p ++ [x])) q.minPriority
    q.span ≤ lenFrom q.priorityQueue q.minPriority q.span + 1
  simp only [List.length_append, List.length_singleton] at this
  split_ifs at this <;> omega

/-- `Get`'s scan finds nothing exactly when `lenNoLock` is zero. -/
theorem scanFrom_eq_none_iff {q : PriorityType α} :
    scanFrom q.priorityQueue q.maxPriority q.span = none ↔ q.lenNoLock = 0 := by
  constructor
  · intro hs
    refine lenNoLock_eq_zero_iff.mpr fun p h1 h2 => ?_
    have hp : q.maxPriority - ((q.maxPriority - p).toNat : Int) = p := by omega
    have := scanFrom_none hs (q.maxPriority - p).toNat (by unfold span; omega)
    rwa [hp] at this
  · intro h0
    cases hs : scanFrom q.priorityQueue q.maxPriority q.span with
    | none => rfl
    | some j =>
      obtain ⟨h1, h2, h3, -⟩ := scanFrom_some hs
      exact absurd (lenNoLock_eq_zero_iff.mp h0 j (by unfold span at h1; omega) h2) h3

section Locked

variable [DecidableEq α]

/-- `get` through its scan alone: the `lenNoLock` test only decides what the scan finds. -/
theorem get_eq_scan (q : PriorityType α) :
    q.get =
      match scanFrom q.priorityQueue q.maxPriority q.span with
      | none => if q.shuttingDown then .shutdown else .wait
      | some p =>
        match q.priorityQueue p with
        | [] => .wait
        | x :: rest => .item x { q with
            priorityQueue := Function.update q.priorityQueue p rest
            processing := insert x q.processing
            dirty := q.dirty.erase x } := by
  unfold get
  by_cases h : q.lenNoLock = 0
  · rw [if_pos h, scanFrom_eq_none_iff.mpr h]
  · rw [if_neg h]
    cases hs : scanFrom q.priorityQueue q.maxPriority q.span with
    | none => exact absurd (scanFrom_eq_none_iff.mp hs) h
    | some p => rfl

/-- **Get's pass.** When some bucket in range holds an item, `get` takes the head `x` of the
highest such bucket `p`: every bucket above `p` in range is empty, and the new state moves `x`
from `dirty` to `processing` and drops it from the front of bucket `p`. -/
theorem get_spec {q : PriorityType α} (h : q.lenNoLock ≠ 0) :
    ∃ p x rest, q.minPriority ≤ p ∧ p ≤ q.maxPriority ∧ q.priorityQueue p = x :: rest ∧
      (∀ p', p < p' → p' ≤ q.maxPriority → q.priorityQueue p' = []) ∧
      q.get = .item x { q with
        priorityQueue := Function.update q.priorityQueue p rest
        processing := insert x q.processing
        dirty := q.dirty.erase x } := by
  unfold get
  rw [if_neg h]
  cases hscan : scanFrom q.priorityQueue q.maxPriority q.span with
  | none =>
    refine absurd (lenNoLock_eq_zero_iff.mpr fun p h1 h2 => ?_) h
    have hp : q.maxPriority - ((q.maxPriority - p).toNat : Int) = p := by omega
    have := scanFrom_none hscan (q.maxPriority - p).toNat (by unfold span; omega)
    rwa [hp] at this
  | some p =>
    obtain ⟨h1, h2, h3, h4⟩ := scanFrom_some hscan
    obtain ⟨x, rest, hx⟩ := List.exists_cons_of_ne_nil h3
    refine ⟨p, x, rest, by unfold span at h1; omega, h2, hx, h4, ?_⟩
    simp only [Option.getD_some, hx]

/-- A pass of `get` that does not take an item leaves every bucket in range empty. -/
theorem get_wait_or_shutdown {q : PriorityType α} (h : ∀ x q', q.get ≠ .item x q') :
    q.lenNoLock = 0 := by
  by_contra hne
  obtain ⟨p, x, rest, -, -, -, -, hget⟩ := get_spec hne
  exact h _ _ hget

theorem get_of_lenNoLock_eq_zero {q : PriorityType α} (h : q.lenNoLock = 0) :
    q.get = if q.shuttingDown then .shutdown else .wait := by
  simp [get, h]

/-- What a pass of `get` that takes an item did: `get_spec` read backwards. -/
theorem get_eq_item {q q' : PriorityType α} {x : α} (hg : q.get = .item x q') :
    ∃ p rest, q.minPriority ≤ p ∧ p ≤ q.maxPriority ∧ q.priorityQueue p = x :: rest ∧
      (∀ p', p < p' → p' ≤ q.maxPriority → q.priorityQueue p' = []) ∧
      q' = { q with
        priorityQueue := Function.update q.priorityQueue p rest
        processing := insert x q.processing
        dirty := q.dirty.erase x } := by
  have hne : q.lenNoLock ≠ 0 := by
    intro h0; rw [get_of_lenNoLock_eq_zero h0] at hg; split at hg <;> cases hg
  obtain ⟨p, y, rest, h1, h2, h3, h4, hget⟩ := get_spec hne
  rw [hget] at hg
  obtain ⟨rfl, rfl⟩ := GetStep.item.inj hg
  exact ⟨p, rest, h1, h2, h3, h4, rfl⟩

/-- A pass that waits found no item in range and the queue live. -/
theorem get_eq_wait {q : PriorityType α} (h : q.get = .wait) :
    q.shuttingDown = false ∧ q.lenNoLock = 0 := by
  by_cases h0 : q.lenNoLock = 0
  · rw [get_of_lenNoLock_eq_zero h0] at h
    cases hsd : q.shuttingDown <;> simp_all
  · obtain ⟨_, _, _, _, _, _, _, hget⟩ := get_spec h0
    rw [hget] at h; cases h

/-- A pass that returns `(nil, true)` found no item in range and the queue shutting down. -/
theorem get_eq_shutdown {q : PriorityType α} (h : q.get = .shutdown) :
    q.shuttingDown = true ∧ q.lenNoLock = 0 := by
  by_cases h0 : q.lenNoLock = 0
  · rw [get_of_lenNoLock_eq_zero h0] at h
    cases hsd : q.shuttingDown <;> simp_all
  · obtain ⟨_, _, _, _, _, _, _, hget⟩ := get_spec h0
    rw [hget] at h; cases h

/-- A pass that takes an item leaves one item less in range. -/
theorem lenNoLock_of_get_item {q q' : PriorityType α} {x : α} (h : q.get = .item x q') :
    q'.lenNoLock + 1 = q.lenNoLock ∧ q'.shuttingDown = q.shuttingDown := by
  obtain ⟨p, rest, h1, h2, hp, -, rfl⟩ := get_eq_item h
  have := lenFrom_update q.priorityQueue p rest q.minPriority q.span
  have hw : q.minPriority ≤ p ∧ p < q.minPriority + q.span := by unfold span; omega
  rw [if_pos hw, if_pos hw, hp, List.length_cons] at this
  exact ⟨by
    show lenFrom (Function.update q.priorityQueue p rest) q.minPriority q.span + 1 =
      lenFrom q.priorityQueue q.minPriority q.span
    omega, rfl⟩

theorem add_shuttingDown (q : PriorityType α) (x : α) (p : Int) :
    (q.add x p).1.shuttingDown = q.shuttingDown := by
  simp only [add]; split_ifs <;> rfl

theorem add_snd_ne_broadcast (q : PriorityType α) (x : α) (p : Int) :
    (q.add x p).2 ≠ .broadcast := by
  simp only [add]; split_ifs <;> simp

/-- `add` adds at most one item in range. -/
theorem add_lenNoLock_le (q : PriorityType α) (x : α) (p : Int) :
    (q.add x p).1.lenNoLock ≤ q.lenNoLock + 1 := by
  simp only [add]
  split_ifs
  all_goals first | exact lenNoLock_enqueue_le _ _ _ | exact Nat.le_succ _

/-- An `add` that does not signal adds nothing to the buckets. -/
theorem add_lenNoLock_eq (q : PriorityType α) (x : α) (p : Int) (h : (q.add x p).2 ≠ .signal) :
    (q.add x p).1.lenNoLock = q.lenNoLock := by
  revert h
  simp only [add]
  split_ifs <;> first | (intro; rfl) | simp

theorem done_shuttingDown (q : PriorityType α) (x : α) (p : Int) :
    (q.done x p).1.shuttingDown = q.shuttingDown := by
  simp only [done]; split_ifs <;> rfl

theorem done_snd_ne_broadcast (q : PriorityType α) (x : α) (p : Int) :
    (q.done x p).2 ≠ .broadcast := by
  simp only [done]; split_ifs <;> simp

/-- `done` adds at most one item in range. -/
theorem done_lenNoLock_le (q : PriorityType α) (x : α) (p : Int) :
    (q.done x p).1.lenNoLock ≤ q.lenNoLock + 1 := by
  simp only [done]
  split_ifs
  all_goals first | exact lenNoLock_enqueue_le _ _ _ | exact Nat.le_succ _

/-- A `done` that does not signal adds nothing to the buckets. -/
theorem done_lenNoLock_eq (q : PriorityType α) (x : α) (p : Int)
    (h : (q.done x p).2 ≠ .signal) : (q.done x p).1.lenNoLock = q.lenNoLock := by
  revert h
  simp only [done]
  split_ifs <;> first | (intro; rfl) | simp

theorem add_processing (q : PriorityType α) (x : α) (p : Int) :
    (q.add x p).1.processing = q.processing := by
  simp only [add]; split_ifs <;> rfl

theorem done_processing (q : PriorityType α) (x : α) (p : Int) :
    (q.done x p).1.processing = q.processing.erase x := by
  simp only [done]; split_ifs <;> rfl

/-- A `done` that empties `processing` signals, whether or not it re-enqueues the item. -/
theorem done_signal_of_processing_eq_empty (q : PriorityType α) (x : α) (p : Int)
    (h : (q.done x p).1.processing = ∅) : (q.done x p).2 = .signal := by
  revert h
  simp only [done]
  split_ifs <;> simp_all

theorem processing_of_get_item {q q' : PriorityType α} {x : α} (h : q.get = .item x q') :
    q'.processing = insert x q.processing := by
  obtain ⟨_, _, _, _, _, _, rfl⟩ := get_eq_item h
  rfl

end Locked

end PriorityType

end ClientGo.Workqueue
