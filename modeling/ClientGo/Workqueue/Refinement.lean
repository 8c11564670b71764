import ClientGo.Workqueue.Invariant

/-!
# The queue refines a priority FIFO

The abstract model of the queue's order (`PriorityFifos`) keeps one FIFO per priority in
`[0, maxPriority]`. It is fed by the enqueue events of the queue it watches: an `Add`, while the
queue is not shutting down, of an item that is neither dirty nor processing, and a `Done` of an
item that is dirty (`liveEnqueueEvent`); it pushes at `clipInt(priority, 0, maxPriority)` and a
`Get` pops the front of the highest non-empty FIFO.

`fifoRun` runs the queue and the model in lock step. When every priority `getPriorityFunc`
returns at `Done` lies in range, the two return the same items (`run_refines_priorityFifos`):
the buckets *are* the FIFOs (`Sim`). Without that condition they part: `Done` re-enqueues at the
priority it is given, without the `clipInt` that `Add` applies, so an item re-enqueued above
`maxPriority` sits in a bucket `Get` never scans, and `Get` hands out a lower item the model holds
back (`done_unclipped_priority_jumps_queue`). The shutdown guard of the events is needed as well:
`Add` is a no-op once the queue shuts down.
-/

namespace ClientGo.Workqueue

/-- The spec's model: one FIFO per priority in `[0, maxPriority]`. -/
structure PriorityFifos (α : Type) where
  maxPriority : Int
  fifo : Int → List α

variable {α : Type} [DecidableEq α]

namespace PriorityFifos

/-- The empty model. -/
def empty (maxPriority : Int) : PriorityFifos α := ⟨maxPriority, fun _ => []⟩

/-- Push `x` at `clamp(priority, 0, maxPriority)`. -/
def push (a : PriorityFifos α) (priority : Int) (x : α) : PriorityFifos α :=
  let p := clipInt priority 0 a.maxPriority
  { a with fifo := Function.update a.fifo p (a.fifo p ++ [x]) }

/-- Pop the front of the highest non-empty FIFO. -/
def pop (a : PriorityFifos α) : Option (α × PriorityFifos α) :=
  match scanFrom a.fifo a.maxPriority (a.maxPriority + 1).toNat with
  | none => none
  | some p =>
    match a.fifo p with
    | [] => none
    | x :: rest => some (x, { a with fifo := Function.update a.fifo p rest })

end PriorityFifos

/-- The enqueue event of a call in state `q`, as the spec of the order reads it: an `Add` of
an item that is neither dirty nor processing, or a `Done` of a dirty item. -/
def enqueueEvent (q : PriorityType α) : Op α → Option (α × Int)
  | .add x p => if x ∉ q.dirty ∧ x ∉ q.processing then some (x, p) else none
  | .done x p => if x ∈ q.dirty then some (x, p) else none
  | _ => none

/-- The enqueue events of the code: an `Add` only counts while the queue is not shutting
down. -/
def liveEnqueueEvent (q : PriorityType α) : Op α → Option (α × Int)
  | .add x p =>
    if q.shuttingDown = false ∧ x ∉ q.dirty ∧ x ∉ q.processing then some (x, p) else none
  | .done x p => if x ∈ q.dirty then some (x, p) else none
  | _ => none

/-- The model's step for a call made on the queue in state `q`, given the events it sees. -/
def fifoStep (event : PriorityType α → Op α → Option (α × Int)) (q : PriorityType α)
    (a : PriorityFifos α) : Op α → PriorityFifos α × Option α
  | .get =>
    match a.pop with
    | some (x, a') => (a', some x)
    | none => (a, none)
  | op =>
    match event q op with
    | some (x, p) => (a.push p x, none)
    | none => (a, none)

/-- Run the calls on the queue and, in lock step, on the model; what the model returns. -/
def fifoRun (event : PriorityType α → Op α → Option (α × Int)) :
    PriorityType α → PriorityFifos α → List (Op α) → Option (List (Option α))
  | _, _, [] => some []
  | q, a, op :: ops =>
    (q.exec op).bind fun r =>
      (fifoRun event r.1 (fifoStep event q a op).1 ops).map ((fifoStep event q a op).2 :: ·)

/-- The buckets are the FIFOs. -/
structure Sim (q : PriorityType α) (a : PriorityFifos α) : Prop where
  buckets : q.priorityQueue = a.fifo
  maxPriority : a.maxPriority = q.maxPriority
  minPriority : q.minPriority = 0

omit [DecidableEq α] in
/-- `Sim` reads only the buckets and the range. -/
theorem Sim.frame {q q' : PriorityType α} {a : PriorityFifos α} (h : Sim q a)
    (hb : q'.priorityQueue = q.priorityQueue) (hmax : q'.maxPriority = q.maxPriority)
    (hmin : q'.minPriority = q.minPriority) : Sim q' a :=
  ⟨hb.trans h.buckets, h.maxPriority.trans hmax.symm, hmin.trans h.minPriority⟩

omit [DecidableEq α] in
/-- Appending at a clipped priority is the model's push. -/
theorem Sim.enqueue {q : PriorityType α} {a : PriorityFifos α} (h : Sim q a) (p : Int)
    (x : α) : Sim (q.enqueue (clipInt p 0 q.maxPriority) x) (a.push p x) :=
  ⟨by simp only [PriorityType.enqueue, PriorityFifos.push, h.buckets, h.maxPriority],
    h.maxPriority, h.minPriority⟩

omit [DecidableEq α] in
/-- Only a `Get` returns something in the model. -/
theorem fifoStep_snd {event : PriorityType α → Op α → Option (α × Int)} {q : PriorityType α}
    {a : PriorityFifos α} {op : Op α} (hop : op ≠ .get) : (fifoStep event q a op).2 = none := by
  cases op <;> simp only [fifoStep, ne_eq, not_true_eq_false] at hop ⊢ <;> split <;> rfl

/-- One call keeps `Sim` and returns what the model returns. -/
theorem Sim.exec {q q' : PriorityType α} {a : PriorityFifos α} {op : Op α} {out : Option α}
    (h : Sim q a) (hop : op.doneInRange q.maxPriority) (he : q.exec op = some (q', out)) :
    Sim q' (fifoStep liveEnqueueEvent q a op).1 ∧ (fifoStep liveEnqueueEvent q a op).2 = out := by
  obtain ⟨hb, hmax, hmin⟩ := h
  cases op with
  | add x p =>
    simp only [PriorityType.exec, Option.some.injEq, Prod.mk.injEq] at he
    obtain ⟨rfl, rfl⟩ := he
    refine ⟨⟨?_, ?_, by simp [hmin]⟩, fifoStep_snd (by simp)⟩ <;>
      simp only [PriorityType.add_priorityQueue, fifoStep, liveEnqueueEvent] <;> split_ifs <;>
      simp [PriorityType.enqueue, PriorityFifos.push, hb, hmax, hmin]
  | get =>
    have hspan : (q.maxPriority + 1).toNat = q.span := by simp [PriorityType.span, hmin]
    simp only [PriorityType.exec, PriorityType.get_eq_scan] at he
    simp only [fifoStep, PriorityFifos.pop, hmax, ← hb, hspan]
    cases hs : scanFrom q.priorityQueue q.maxPriority q.span with
    | none =>
      have : q' = q ∧ out = none := by
        cases hsd : q.shuttingDown <;> simp [hs, hsd] at he
        exact ⟨he.1.symm, he.2.symm⟩
      obtain ⟨rfl, rfl⟩ := this
      simp only [hs]
      exact ⟨⟨hb, hmax, hmin⟩, trivial⟩
    | some p =>
      cases hp : q.priorityQueue p with
      | nil => simp only [hs, hp] at he; cases he
      | cons x rest =>
        simp only [hs, hp, Option.some.injEq, Prod.mk.injEq] at he ⊢
        obtain ⟨rfl, rfl⟩ := he
        exact ⟨⟨rfl, rfl, hmin⟩, rfl⟩
  | done x p =>
    simp only [PriorityType.exec] at he
    split at he
    · simp only [Option.some.injEq, Prod.mk.injEq] at he
      obtain ⟨rfl, rfl⟩ := he
      simp only [Op.doneInRange] at hop
      have hclip : clipInt p 0 q.maxPriority = p := by unfold clipInt; split_ifs <;> omega
      refine ⟨⟨?_, ?_, by simp [hmin]⟩, fifoStep_snd (by simp)⟩ <;>
        simp only [PriorityType.done_priorityQueue, fifoStep, liveEnqueueEvent] <;> split_ifs <;>
        simp [PriorityType.enqueue, PriorityFifos.push, hb, hmax, hclip]
    · cases he
  | shutDown | shutDownWithDrain =>
    simp only [PriorityType.exec, Option.some.injEq, Prod.mk.injEq] at he
    obtain ⟨rfl, rfl⟩ := he
    exact ⟨⟨hb, hmax, hmin⟩, rfl⟩

/-- `Sim` carried along a run: the model returns what the queue returns. -/
theorem fifoRun_of_run (maxPriority : Int) :
    ∀ (ops : List (Op α)) (q q' : PriorityType α) (a : PriorityFifos α) (outs : List (Option α)),
      Sim q a → q.maxPriority = maxPriority → (∀ op ∈ ops, op.doneInRange maxPriority) →
      q.run ops = some (q', outs) → fifoRun liveEnqueueEvent q a ops = some outs
  | [], q, q', a, outs, _, _, _, h => by
    simp only [PriorityType.run, Option.some.injEq, Prod.mk.injEq] at h
    rw [← h.2]; rfl
  | op :: ops, q, q', a, outs, hs, hmax, hops, h => by
    obtain ⟨q1, out, outs', h1, h2, rfl⟩ := PriorityType.run_cons h
    have hop : op.doneInRange q.maxPriority := hmax ▸ hops op (by simp)
    obtain ⟨hs1, hout⟩ := hs.exec hop h1
    have ih := fifoRun_of_run maxPriority ops q1 q' _ outs' hs1
      ((PriorityType.exec_range h1).2.trans hmax) (fun o ho => hops o (by simp [ho])) h2
    simp only [fifoRun, h1, hout]
    exact congrArg (Option.map _) ih

/-- **Refinement.** When every value `getPriorityFunc` returns at `Done` lies in
`[0, maxPriority]`, every run of the queue returns, call by call, what the priority-FIFO model
returns: each `Get` takes the front of the highest non-empty FIFO, and equal priorities come out
in the order of their latest enqueue. -/
theorem run_refines_priorityFifos (maxPriority : Int) (ops : List (Op α))
    (hops : ∀ op ∈ ops, op.doneInRange maxPriority) (q : PriorityType α) (outs : List (Option α))
    (h : (newPriorityQueue maxPriority).run ops = some (q, outs)) :
    fifoRun liveEnqueueEvent (newPriorityQueue maxPriority) (PriorityFifos.empty maxPriority) ops =
      some outs :=
  fifoRun_of_run maxPriority ops _ q _ outs ⟨rfl, rfl, rfl⟩ rfl hops h

/-- Two items at priorities `0` and `1` with `maxPriority = 1`: the queue's `Get` returns the
higher one, as the model does. -/
theorem run_refines_priorityFifos_two_items :
    fifoRun liveEnqueueEvent (newPriorityQueue 1 : PriorityType Nat) (PriorityFifos.empty 1)
      [.add 1 0, .add 2 1, .get] = some [none, none, some 2] :=
  run_refines_priorityFifos 1 [.add 1 0, .add 2 1, .get] (by simp [Op.doneInRange]) _ _ rfl

/-- The spec's events without the shutdown guard: with `maxPriority = 1`, after `Add(1)` at
priority `0`, `ShutDown` and `Add(2)` at priority `1`, the queue's `Get` returns `1` (the
second `Add` was dropped) while the model pops `2`. -/
example :
    (((newPriorityQueue 1 : PriorityType Nat).run [.add 1 0, .shutDown, .add 2 1, .get]).map
        Prod.snd,
      fifoRun enqueueEvent (newPriorityQueue 1 : PriorityType Nat) (PriorityFifos.empty 1)
        [.add 1 0, .shutDown, .add 2 1, .get]) =
      (some [none, none, none, some 1], some [none, none, none, some 2]) :=
  rfl

/-- `Done` re-enqueues at the priority `getPriorityFunc` returns, without the `clipInt` that `Add`
applies. With `maxPriority = 1`, item `0` is added at priority `1`, taken by `Get`, added again
while it is processed, and done with priority `5`; then item `1` is added at priority `0`. The
model pushes item `0` at `clamp(5, 0, 1) = 1` and its `Get` returns `0`; the queue put it in
bucket `5`, which `Get` never scans, and returns `1`, the lower item. -/
theorem done_unclipped_priority_jumps_queue :
    ((newPriorityQueue 1 : PriorityType Nat).run
        [.add 0 1, .get, .add 0 1, .done 0 5, .add 1 0, .get]).map Prod.snd =
      some [none, some 0, none, none, none, some 1] ∧
    fifoRun enqueueEvent (newPriorityQueue 1 : PriorityType Nat) (PriorityFifos.empty 1)
        [.add 0 1, .get, .add 0 1, .done 0 5, .add 1 0, .get] =
      some [none, some 0, none, none, none, some 0] :=
  ⟨rfl, rfl⟩

end ClientGo.Workqueue
