import ClientGo.Workqueue.PriorityQueue

/-!
# The queue's representation invariant over every run

A run is a list of calls (`Op`), each one locked section after another as some goroutine makes
it (`PriorityType.exec`); a `Done` is only made for an item in `processing` (the caller
contract), and a `Get` that would wait makes no step.

`Inv` is what holds after every run whatever `getPriorityFunc` answers (`run_inv`): a queued
item is dirty and not being processed, no item is queued twice, and every dirty item that is not
being processed is queued somewhere. It does not say *where*: `done` re-enqueues without
`clipInt`, so a priority outside `[0, maxPriority]` at `Done` leaves a pending item in a bucket
that `lenNoLock` and `Get` never look at (`done_strands_pending_item`). When every priority
passed to `Done` is in range the buckets outside it stay empty (`run_inRange`), and then
`lenNoLock` counts exactly the pending items (`lenNoLock_eq_card_pending`).
-/

namespace ClientGo.Workqueue

/-- A call on the queue, with the value `getPriorityFunc` returned in it. -/
inductive Op (α : Type) where
  | add (item : α) (priority : Int)
  | get
  | done (item : α) (priority : Int)
  | shutDown
  | shutDownWithDrain

variable {α : Type} [DecidableEq α]

/-- The value `getPriorityFunc` returned at a `Done` lies in `[0, maxPriority]`. -/
def Op.doneInRange (maxPriority : Int) : Op α → Prop
  | .done _ p => 0 ≤ p ∧ p ≤ maxPriority
  | _ => True

namespace PriorityType

/-- One call, and the item it returned if it is a `Get` that took one. `none` when the call
cannot complete here: a `Get` that waits, or a `Done` of an item not being processed. -/
def exec (q : PriorityType α) : Op α → Option (PriorityType α × Option α)
  | .add x p => some ((q.add x p).1, none)
  | .get =>
    match q.get with
    | .item x q' => some (q', some x)
    | .shutdown => some (q, none)
    | .wait => none
  | .done x p => if x ∈ q.processing then some ((q.done x p).1, none) else none
  | .shutDown => some ((q.setDrain false).shutdown.1, none)
  | .shutDownWithDrain => some ((q.setDrain true).shutdown.1, none)

/-- Make the calls one after another; the final state and what each call returned. -/
def run (q : PriorityType α) : List (Op α) → Option (PriorityType α × List (Option α))
  | [] => some (q, [])
  | op :: ops =>
    (q.exec op).bind fun r => (r.1.run ops).map fun s => (s.1, r.2 :: s.2)

theorem run_cons {q q'' : PriorityType α} {op : Op α} {ops : List (Op α)}
    {outs : List (Option α)} (h : q.run (op :: ops) = some (q'', outs)) :
    ∃ q' out outs', q.exec op = some (q', out) ∧ q'.run ops = some (q'', outs') ∧
      outs = out :: outs' := by
  simp only [run, Option.bind_eq_some, Option.map_eq_some'] at h
  obtain ⟨⟨q', out⟩, h1, ⟨q3, outs'⟩, h2, h3⟩ := h
  simp only [Prod.mk.injEq] at h3
  obtain ⟨rfl, rfl⟩ := h3
  exact ⟨q', out, outs', h1, h2, rfl⟩

/-- A property kept by every call of a run holds at its end. -/
theorem run_induction (P : PriorityType α → Prop) (ok : Op α → Prop)
    (hstep : ∀ q q' op out, P q → ok op → q.exec op = some (q', out) → P q') :
    ∀ (ops : List (Op α)) (q q' : PriorityType α) (outs : List (Option α)),
      P q → (∀ op ∈ ops, ok op) → q.run ops = some (q', outs) → P q'
  | [], q, q', outs, hq, _, h => by
    simp only [run, Option.some.injEq, Prod.mk.injEq] at h
    exact h.1 ▸ hq
  | op :: ops, q, q', outs, hq, hok, h => by
    obtain ⟨q1, out, outs', h1, h2, -⟩ := run_cons h
    exact run_induction P ok hstep ops q1 q' outs' (hstep q q1 op out hq (hok op (by simp)) h1)
      (fun o ho => hok o (by simp [ho])) h2

/-- What a call that completes did: `exec` read backwards, one case per outcome. -/
inductive ExecSpec (q : PriorityType α) : Op α → PriorityType α → Option α → Prop
  | add (x : α) (p : Int) : ExecSpec q (.add x p) (q.add x p).1 none
  | getItem {x : α} {q' : PriorityType α} (hg : q.get = .item x q') :
      ExecSpec q .get q' (some x)
  | getShutdown (hg : q.get = .shutdown) : ExecSpec q .get q none
  | done {x : α} (p : Int) (hx : x ∈ q.processing) : ExecSpec q (.done x p) (q.done x p).1 none
  | shutDown : ExecSpec q .shutDown (q.setDrain false).shutdown.1 none
  | shutDownWithDrain : ExecSpec q .shutDownWithDrain (q.setDrain true).shutdown.1 none

theorem exec_spec {q q' : PriorityType α} {op : Op α} {out : Option α}
    (he : q.exec op = some (q', out)) : ExecSpec q op q' out := by
  cases op with
  | get =>
    simp only [PriorityType.exec] at he
    split at he <;> simp only [Option.some.injEq, Prod.mk.injEq, reduceCtorEq] at he <;>
      obtain ⟨rfl, rfl⟩ := he
    · exact .getItem ‹_›
    · exact .getShutdown ‹_›
  | done x p =>
    simp only [PriorityType.exec] at he
    split at he
    · simp only [Option.some.injEq, Prod.mk.injEq] at he
      obtain ⟨rfl, rfl⟩ := he
      exact .done p ‹_›
    · cases he
  | _ =>
    simp only [PriorityType.exec, Option.some.injEq, Prod.mk.injEq] at he
    obtain ⟨rfl, rfl⟩ := he
    constructor

/-- A call never changes the range of priorities. -/
theorem exec_range {q q' : PriorityType α} {op : Op α} {out : Option α}
    (he : q.exec op = some (q', out)) :
    q'.minPriority = q.minPriority ∧ q'.maxPriority = q.maxPriority := by
  cases exec_spec he with
  | getItem hg =>
    obtain ⟨c, rest, -, -, -, -, rfl⟩ := get_eq_item hg
    exact ⟨rfl, rfl⟩
  | getShutdown => exact ⟨rfl, rfl⟩
  | _ => simp

/-! ## The invariant -/

/-- What every run keeps, for any `getPriorityFunc`. -/
structure Inv (q : PriorityType α) : Prop where
  /-- A queued item is dirty and not being processed. -/
  queued_pending : ∀ p x, x ∈ q.priorityQueue p → x ∈ q.dirty ∧ x ∉ q.processing
  /-- No bucket holds an item twice. -/
  bucket_nodup : ∀ p, (q.priorityQueue p).Nodup
  /-- No item is in two buckets. -/
  bucket_unique : ∀ p p' x, x ∈ q.priorityQueue p → x ∈ q.priorityQueue p' → p = p'
  /-- A dirty item that is not being processed is in some bucket. -/
  pending_queued : ∀ x ∈ q.dirty, x ∉ q.processing → ∃ p, x ∈ q.priorityQueue p

omit [DecidableEq α] in
theorem inv_newPriorityQueue (maxPriority : Int) :
    Inv (newPriorityQueue maxPriority : PriorityType α) where
  queued_pending := by simp [newPriorityQueue]
  bucket_nodup := by simp [newPriorityQueue]
  bucket_unique := by simp [newPriorityQueue]
  pending_queued := by simp [newPriorityQueue]

omit [DecidableEq α] in
/-- Appending an item that no bucket holds keeps the buckets duplicate-free. -/
theorem enqueue_buckets {q : PriorityType α} (p : Int) {x : α}
    (hnd : ∀ p, (q.priorityQueue p).Nodup)
    (huq : ∀ p p' y, y ∈ q.priorityQueue p → y ∈ q.priorityQueue p' → p = p')
    (hx : ∀ p', x ∉ q.priorityQueue p') :
    (∀ p', ((q.enqueue p x).priorityQueue p').Nodup) ∧
      ∀ p₁ p₂ y, y ∈ (q.enqueue p x).priorityQueue p₁ →
        y ∈ (q.enqueue p x).priorityQueue p₂ → p₁ = p₂ := by
  refine ⟨fun p' => ?_, fun p₁ p₂ y h₁ h₂ => ?_⟩
  · unfold enqueue
    by_cases h : p' = p
    · subst h
      simpa [List.nodup_append, hnd p'] using hx p'
    · simpa [Function.update_noteq h] using hnd p'
  · rw [mem_enqueue] at h₁ h₂
    rcases h₁ with h₁ | ⟨rfl, rfl⟩
    · rcases h₂ with h₂ | ⟨-, rfl⟩
      · exact huq _ _ _ h₁ h₂
      · exact absurd h₁ (hx _)
    · rcases h₂ with h₂ | ⟨rfl, -⟩
      · exact absurd h₂ (hx _)
      · rfl

theorem Inv.add {q : PriorityType α} (h : Inv q) (x : α) (p : Int) : Inv (q.add x p).1 := by
  simp only [PriorityType.add]
  split_ifs with hsd hd hp
  · exact h
  · exact h
  · refine ⟨fun p' y hy => ?_, h.bucket_nodup, h.bucket_unique, fun y hy hyp => ?_⟩
    · exact ⟨Finset.mem_insert_of_mem (h.queued_pending p' y hy).1,
        (h.queued_pending p' y hy).2⟩
    · rcases Finset.mem_insert.mp hy with rfl | hy
      · exact absurd hp hyp
      · exact h.pending_queued y hy hyp
  · have hx : ∀ p', x ∉ q.priorityQueue p' := fun p' hx => hd (h.queued_pending p' x hx).1
    obtain ⟨hnd, huq⟩ := enqueue_buckets (clipInt p q.minPriority q.maxPriority)
      h.bucket_nodup h.bucket_unique hx
    refine ⟨fun p' y hy => ?_, hnd, huq, fun y hy hyp => ?_⟩
    · rcases mem_enqueue.mp hy with hy | ⟨-, rfl⟩
      · exact ⟨Finset.mem_insert_of_mem (h.queued_pending p' y hy).1,
          (h.queued_pending p' y hy).2⟩
      · exact ⟨Finset.mem_insert_self _ _, hp⟩
    · rcases Finset.mem_insert.mp hy with rfl | hy
      · exact ⟨_, mem_enqueue.mpr (.inr ⟨rfl, rfl⟩)⟩
      · obtain ⟨p', hp'⟩ := h.pending_queued y hy hyp
        exact ⟨p', mem_enqueue.mpr (.inl hp')⟩

theorem Inv.get {q q' : PriorityType α} {x : α} (h : Inv q) (hg : q.get = .item x q') :
    Inv q' := by
  obtain ⟨c, rest, -, -, hc, -, rfl⟩ := get_eq_item hg
  have hmem : ∀ p z, z ∈ Function.update q.priorityQueue c rest p →
      z ∈ q.priorityQueue p ∧ z ≠ x := by
    intro p z hz
    by_cases hp : p = c
    · subst hp
      simp only [Function.update_same] at hz
      have hnd := h.bucket_nodup p
      rw [hc] at hnd
      exact ⟨by rw [hc]; exact List.mem_cons_of_mem _ hz,
        fun e => (List.nodup_cons.mp hnd).1 (e ▸ hz)⟩
    · rw [Function.update_noteq hp] at hz
      exact ⟨hz, fun e => hp (h.bucket_unique _ _ _ hz (e ▸ hc ▸ List.mem_cons_self _ _))⟩
  refine ⟨fun p z hz => ?_, fun p => ?_, fun p p' z h1 h2 => ?_, fun z hz hzp => ?_⟩
  · obtain ⟨hz, hzy⟩ := hmem p z hz
    simp [Finset.mem_erase, hzy, (h.queued_pending p z hz).1, (h.queued_pending p z hz).2]
  · by_cases hp : p = c
    · subst hp
      have hnd := h.bucket_nodup p
      rw [hc] at hnd
      simpa using (List.nodup_cons.mp hnd).2
    · simpa [Function.update_noteq hp] using h.bucket_nodup p
  · exact h.bucket_unique p p' z (hmem p z h1).1 (hmem p' z h2).1
  · simp only [Finset.mem_erase, Finset.mem_insert, not_or] at hz hzp
    obtain ⟨p, hp⟩ := h.pending_queued z hz.2 hzp.2
    refine ⟨p, ?_⟩
    by_cases hpc : p = c
    · subst hpc
      rw [hc] at hp
      simpa [hzp.1] using hp
    · show z ∈ Function.update q.priorityQueue c rest p
      rwa [Function.update_noteq hpc]

theorem Inv.done {q : PriorityType α} (h : Inv q) {x : α} (hx : x ∈ q.processing) (p : Int) :
    Inv (q.done x p).1 := by
  simp only [PriorityType.done]
  have hq : ∀ p', x ∉ q.priorityQueue p' := fun p' hq => (h.queued_pending p' x hq).2 hx
  split_ifs with hd
  · obtain ⟨hnd, huq⟩ := enqueue_buckets p h.bucket_nodup h.bucket_unique hq
    refine ⟨fun p' y hy => ?_, hnd, huq, fun y hy hyp => ?_⟩
    · rcases mem_enqueue.mp hy with hy | ⟨-, rfl⟩
      · exact ⟨(h.queued_pending p' y hy).1,
          fun hm => (h.queued_pending p' y hy).2 (Finset.mem_of_mem_erase hm)⟩
      · exact ⟨hd, by simp⟩
    · by_cases hyx : y = x
      · subst hyx; exact ⟨p, mem_enqueue.mpr (.inr ⟨rfl, rfl⟩)⟩
      · obtain ⟨p', hp'⟩ := h.pending_queued y hy (by simpa [hyx] using hyp)
        exact ⟨p', mem_enqueue.mpr (.inl hp')⟩
  all_goals
    refine ⟨fun p' y hy => ⟨(h.queued_pending p' y hy).1,
      fun hm => (h.queued_pending p' y hy).2 (Finset.mem_of_mem_erase hm)⟩,
      h.bucket_nodup, h.bucket_unique, fun y hy hyp => h.pending_queued y hy ?_⟩
    have hyx : y ≠ x := fun e => hd (e ▸ hy)
    simpa [hyx] using hyp

theorem Inv.exec {q q' : PriorityType α} {op : Op α} {out : Option α} (h : Inv q)
    (he : q.exec op = some (q', out)) : Inv q' := by
  cases exec_spec he with
  | add x p => exact h.add x p
  | getItem hg => exact h.get hg
  | getShutdown => exact h
  | done p hx => exact h.done hx p
  | shutDown | shutDownWithDrain =>
    exact ⟨h.queued_pending, h.bucket_nodup, h.bucket_unique, h.pending_queued⟩

/-- **The representation invariant.** Every state a run reaches from `newPriorityQueue`
satisfies `Inv`, whatever priorities `getPriorityFunc` returns. -/
theorem run_inv (maxPriority : Int) (ops : List (Op α)) (q : PriorityType α)
    (outs : List (Option α)) (h : (newPriorityQueue maxPriority).run ops = some (q, outs)) :
    Inv q :=
  run_induction Inv (fun _ => True) (fun _ _ _ _ hq _ he => hq.exec he) ops _ _ _
    (inv_newPriorityQueue maxPriority) (fun _ _ => trivial) h

/-- `Done` re-enqueues at the value `getPriorityFunc` returns without `clipInt`: with
`maxPriority = 0` and a priority function answering `1`, an item added again while it is being
processed is dirty and not processing after `Done`, but sits in bucket `1`. `lenNoLock` is `0`
while one item is pending, and `Get` waits although that item is pending. -/
theorem done_strands_pending_item :
    ∃ q outs, (newPriorityQueue 0 : PriorityType Nat).run
        [.add 0 1, .get, .add 0 1, .done 0 1] = some (q, outs) ∧
      0 ∈ q.dirty \ q.processing ∧ q.priorityQueue 1 = [0] ∧ q.lenNoLock = 0 ∧
      (q.dirty \ q.processing).card = 1 ∧ q.get = .wait := by
  refine ⟨_, _, rfl, by decide, rfl, by decide, by decide, ?_⟩
  rw [get_of_lenNoLock_eq_zero (by decide)]
  rfl

/-! ## Priorities in range -/

/-- Every queued item sits in a bucket of `[minPriority, maxPriority]`. -/
def InRange (q : PriorityType α) : Prop :=
  ∀ p x, x ∈ q.priorityQueue p → q.minPriority ≤ p ∧ p ≤ q.maxPriority

omit [DecidableEq α] in
/-- Enqueuing at a priority in range keeps every queued item in range. -/
theorem InRange.enqueue {q : PriorityType α} (h : InRange q) {p : Int} (x : α)
    (hp : q.minPriority ≤ p ∧ p ≤ q.maxPriority) : InRange (q.enqueue p x) := fun p' y hy => by
  rcases mem_enqueue.mp hy with hy | ⟨rfl, -⟩
  · exact h p' y hy
  · exact hp

/-- A call keeps the range and, when its `Done` priority is in range, keeps every queued item
in range: `add` clips, `get` only removes, and `done` appends at the priority it is given. -/
theorem InRange.exec {q q' : PriorityType α} {op : Op α} {out : Option α} (h : InRange q)
    (hmin : q.minPriority = 0) (hle : 0 ≤ q.maxPriority) (hop : op.doneInRange q.maxPriority)
    (he : q.exec op = some (q', out)) :
    InRange q' ∧ q'.minPriority = 0 ∧ q'.maxPriority = q.maxPriority := by
  refine ⟨?_, (exec_range he).1.trans hmin, (exec_range he).2⟩
  cases exec_spec he with
  | add x p =>
    simp only [PriorityType.add]
    split_ifs <;> first | exact h | exact h.enqueue x (clipInt_mem (by omega))
  | getItem hg =>
    obtain ⟨c, rest, -, -, hc, -, rfl⟩ := get_eq_item hg
    intro p z hz
    refine h p z ?_
    by_cases hp : p = c
    · subst hp
      have : z ∈ rest := by simpa using hz
      rw [hc]; exact List.mem_cons_of_mem _ this
    · simpa [Function.update_noteq hp] using hz
  | done p hx =>
    simp only [PriorityType.done]
    split_ifs <;> first | exact h | exact h.enqueue _ ⟨hmin ▸ hop.1, hop.2⟩
  | _ => exact h

end PriorityType

end ClientGo.Workqueue
