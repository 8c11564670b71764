import ClientGo.Workqueue.Invariant

/-!
# Goroutines on the queue's condition variable

The queue under concurrent callers, as a transition system. Each locked section is one atomic
step (`Phase.next`); `cond.Wait()` puts the caller in the wait set (`getWait`, `drainWait`),
`Signal` moves one waiter to the ready set and `Broadcast` moves all of them (`applyWake`). The
goroutine a `Signal` wakes is chosen by the step (`w`), so every choice is a run.

A goroutine is a call in progress (`Phase`): `Get`, then `Done` of the item it got;
`ShutDownWithDrain` (`setDrain`, `shutdown`, then the loop of `isProcessing`, `shouldDrain` and
`waitForProcessing`); `ShutDown` (`setDrain`, `shutdown`). `Add` is a single locked section, so
it is one step of no particular goroutine. Any number of goroutines start at any time
(`Action.callGet`, ...). `Reachable` is the set of states of all such runs.

The lemmas here say what `Signal` and `Broadcast` can do to the wait and ready sets
(`signal_getWait`, `signal_getReady_le`, `signal_getReady_succ`, `mem_signal`), and invert a
goroutine's step (`next_step`).
-/

namespace ClientGo.Workqueue

/-- Where a goroutine is in the queue's code. -/
inductive Phase (α : Type) where
  /-- In `Get`, before its first test of the loop condition. -/
  | getCall
  /-- In `Get`'s `cond.Wait()`. -/
  | getWait
  /-- Woken in `Get`: it will take the lock and test the loop condition again. -/
  | getReady
  /-- `Get` returned `(x, false)`; the goroutine's next call is `Done(x)`. -/
  | holding (x : α)
  /-- `ShutDownWithDrain`, before `setDrain(true)`. -/
  | drainSetDrain
  /-- `ShutDownWithDrain`, before `shutdown()`. -/
  | drainShutdown
  /-- At the drain loop's `isProcessing()`. -/
  | drainIsProcessing
  /-- At the drain loop's `shouldDrain()`. -/
  | drainShouldDrain
  /-- At the drain loop's `waitForProcessing()`. -/
  | drainWaitForProcessing
  /-- In `waitForProcessing`'s `cond.Wait()`. -/
  | drainWait
  /-- Woken in `waitForProcessing`. -/
  | drainReady
  /-- `ShutDown`, before `setDrain(false)`. -/
  | shutDownSetDrain
  /-- `ShutDown`, before `shutdown()`. -/
  | shutDownShutdown
  /-- The call returned. -/
  | finished
  deriving DecidableEq

variable {α : Type}

namespace Phase

/-- A `Get` caller in the wait set. -/
def isGetWait : Phase α → Bool
  | .getWait => true
  | _ => false

/-- A `Get` caller in the ready set. -/
def isGetReady : Phase α → Bool
  | .getReady => true
  | _ => false

/-- A goroutine in the wait set. -/
def isWaiting : Phase α → Bool
  | .getWait | .drainWait => true
  | _ => false

/-- A `ShutDownWithDrain` caller past its `shutdown()`. -/
def pastShutdown : Phase α → Bool
  | .drainIsProcessing | .drainShouldDrain | .drainWaitForProcessing | .drainWait
  | .drainReady => true
  | _ => false

/-- Woken by the condition variable: a waiter moves to the ready set. -/
def wake : Phase α → Phase α
  | .getWait => .getReady
  | .drainWait => .drainReady
  | t => t

@[simp] theorem isGetWait_wake (t : Phase α) : t.wake.isGetWait = false := by
  cases t <;> rfl

@[simp] theorem pastShutdown_wake (t : Phase α) : t.wake.pastShutdown = t.pastShutdown := by
  cases t <;> rfl

theorem eq_getWait_of_isGetWait {t : Phase α} (h : t.isGetWait = true) : t = .getWait := by
  cases t <;> first | rfl | cases h

theorem isWaiting_of_isGetWait {t : Phase α} (h : t.isGetWait = true) : t.isWaiting = true := by
  rw [eq_getWait_of_isGetWait h]; rfl

theorem isGetReady_of_isWaiting {t : Phase α} (h : t.isWaiting = true) : t.isGetReady = false := by
  cases t <;> first | rfl | cases h

end Phase

/-- `cond.Signal()` waking goroutine `w`: enabled when `w` waits, or when nobody waits. -/
def signal (ts : List (Phase α)) (w : Nat) : Option (List (Phase α)) :=
  if ts.any Phase.isWaiting then
    match ts[w]? with
    | some t => if t.isWaiting then some (ts.set w t.wake) else none
    | none => none
  else some ts

/-- `cond.Broadcast()`: every waiter moves to the ready set. -/
def broadcast (ts : List (Phase α)) : List (Phase α) := ts.map Phase.wake

/-- What a locked section's exit does to the goroutines. -/
def applyWake (ts : List (Phase α)) (w : Nat) : Wake → Option (List (Phase α))
  | .none => some ts
  | .signal => signal ts w
  | .broadcast => some (broadcast ts)

section Steps

variable [DecidableEq α]

/-- The next locked section of a goroutine: its next phase, the queue after the section, and
what the section does to the condition variable. `priority` is what `getPriorityFunc` returns
if the section is `Done`. `none` for a waiter or a goroutine whose call returned. -/
def Phase.next (q : PriorityType α) (priority : Int) :
    Phase α → Option (Phase α × PriorityType α × Wake)
  | .getCall | .getReady =>
    match q.get with
    | .wait => some (.getWait, q, .none)
    | .shutdown => some (.finished, q, .none)
    | .item x q' => some (.holding x, q', .none)
  | .holding x => some (.finished, (q.done x priority).1, (q.done x priority).2)
  | .drainSetDrain => some (.drainShutdown, q.setDrain true, .none)
  | .drainShutdown => some (.drainIsProcessing, q.shutdown.1, q.shutdown.2)
  | .drainIsProcessing => some (if q.isProcessing then .drainShouldDrain else .finished, q, .none)
  | .drainShouldDrain =>
    some (if q.shouldDrain then .drainWaitForProcessing else .finished, q, .none)
  | .drainWaitForProcessing =>
    some (if q.waitForProcessing then .drainWait else .drainIsProcessing, q, .none)
  | .drainReady => some (.drainIsProcessing, q, .none)
  | .shutDownSetDrain => some (.shutDownShutdown, q.setDrain false, .none)
  | .shutDownShutdown => some (.finished, q.shutdown.1, q.shutdown.2)
  | .getWait | .drainWait | .finished => none

end Steps

/-- The queue and the goroutines using it. -/
structure Sys (α : Type) where
  queue : PriorityType α
  threads : List (Phase α)

/-- One step of the system. -/
inductive Action (α : Type) where
  /-- A goroutine calls `Get`. -/
  | callGet
  /-- A goroutine calls `ShutDown`. -/
  | callShutDown
  /-- A goroutine calls `ShutDownWithDrain`. -/
  | callShutDownWithDrain
  /-- A producer's `Add(x)`: `getPriorityFunc` returns `priority`, its `Signal` wakes `w`. -/
  | add (x : α) (priority : Int) (w : Nat)
  /-- Goroutine `i` runs its next locked section, with the priority of a `Done` and the
  goroutine a `Signal` wakes. -/
  | step (i : Nat) (priority : Int) (w : Nat)

section Steps

variable [DecidableEq α]

/-- The system's step function. -/
def Sys.next (s : Sys α) : Action α → Option (Sys α)
  | .callGet => some ⟨s.queue, s.threads ++ [.getCall]⟩
  | .callShutDown => some ⟨s.queue, s.threads ++ [.shutDownSetDrain]⟩
  | .callShutDownWithDrain => some ⟨s.queue, s.threads ++ [.drainSetDrain]⟩
  | .add x p w => (applyWake s.threads w (s.queue.add x p).2).map (⟨(s.queue.add x p).1, ·⟩)
  | .step i p w =>
    s.threads[i]?.bind fun t =>
      (t.next s.queue p).bind fun r =>
        (applyWake (s.threads.set i r.1) w r.2.2).map (⟨r.2.1, ·⟩)

/-- The states of every run from a new queue with no goroutines. -/
inductive Reachable (maxPriority : Int) : Sys α → Prop
  | init : Reachable maxPriority ⟨newPriorityQueue maxPriority, []⟩
  | step {s s' : Sys α} (a : Action α) :
      Reachable maxPriority s → s.next a = some s' → Reachable maxPriority s'

/-- Run the actions in order. -/
def Sys.run (s : Sys α) : List (Action α) → Option (Sys α)
  | [] => some s
  | a :: as => (s.next a).bind (·.run as)

theorem Reachable.run {maxPriority : Int} {s s' : Sys α} (as : List (Action α))
    (hs : Reachable maxPriority s) (h : s.run as = some s') : Reachable maxPriority s' := by
  induction as generalizing s with
  | nil => simp only [Sys.run, Option.some.injEq] at h; exact h ▸ hs
  | cons a as ih =>
    simp only [Sys.run, Option.bind_eq_some] at h
    obtain ⟨s1, h1, h2⟩ := h
    exact ih (hs.step a h1) h2

/-- A goroutine's step, inverted. -/
theorem next_step {s s' : Sys α} {i : Nat} {p : Int} {w : Nat}
    (h : s.next (.step i p w) = some s') :
    ∃ t t' wake, s.threads[i]? = some t ∧ t.next s.queue p = some (t', s'.queue, wake) ∧
      applyWake (s.threads.set i t') w wake = some s'.threads := by
  simp only [Sys.next, Option.bind_eq_some, Option.map_eq_some'] at h
  obtain ⟨t, ht, ⟨t', q', wake⟩, hn, ts, hw, rfl⟩ := h
  exact ⟨t, t', wake, ht, hn, hw⟩

end Steps

/-! ## What `Signal` and `Broadcast` do -/

theorem signal_getWait {ts ts' : List (Phase α)} {w : Nat} (h : signal ts w = some ts')
    (hw : ts'.any Phase.isGetWait) : ts.any Phase.isGetWait := by
  unfold signal at h
  split_ifs at h
  · split at h
    · split_ifs at h
      cases h
      simp only [List.any_eq_true] at hw ⊢
      obtain ⟨t, ht, htw⟩ := hw
      rcases List.mem_or_eq_of_mem_set ht with ht | rfl
      · exact ⟨t, ht, htw⟩
      · simp at htw
    · cases h
  · cases h; exact hw

theorem signal_getReady_le {ts ts' : List (Phase α)} {w : Nat} (h : signal ts w = some ts') :
    ts.countP Phase.isGetReady ≤ ts'.countP Phase.isGetReady := by
  unfold signal at h
  split_ifs at h
  · split at h
    · rename_i t ht
      split_ifs at h with hwt
      cases h
      obtain ⟨hlt, rfl⟩ := List.getElem?_eq_some_iff.mp ht
      rw [List.countP_set _ _ _ _ hlt, Phase.isGetReady_of_isWaiting hwt]
      exact Nat.le_add_right _ _
    · cases h
  · cases h; exact le_refl _

/-- When a `Get` caller waits and no other kind of goroutine does, a `Signal` readies a `Get`
caller. -/
theorem signal_getReady_succ {ts ts' : List (Phase α)} {w : Nat} (h : signal ts w = some ts')
    (hw : ts.any Phase.isGetWait) (hget : ∀ t ∈ ts, t.isWaiting → t.isGetWait) :
    ts'.countP Phase.isGetReady = ts.countP Phase.isGetReady + 1 := by
  unfold signal at h
  have hany : ts.any Phase.isWaiting := by
    obtain ⟨t, ht, htw⟩ := List.any_eq_true.mp hw
    exact List.any_eq_true.mpr ⟨t, ht, Phase.isWaiting_of_isGetWait htw⟩
  rw [if_pos hany] at h
  split at h
  · rename_i t ht
    split_ifs at h with hwt
    cases h
    obtain ⟨hlt, rfl⟩ := List.getElem?_eq_some_iff.mp ht
    have hg := hget _ (List.getElem_mem hlt) hwt
    rw [List.countP_set _ _ _ _ hlt, Phase.eq_getWait_of_isGetWait hg]
    rfl
  · cases h

/-- A goroutine after a `Signal` is one from before, or a waiter from before, woken. -/
theorem mem_signal {ts ts' : List (Phase α)} {w : Nat} (h : signal ts w = some ts')
    {t : Phase α} (ht : t ∈ ts') : ∃ u ∈ ts, t = u ∨ t = u.wake := by
  unfold signal at h
  split_ifs at h
  · split at h
    · rename_i u hu
      split_ifs at h
      cases h
      rcases List.mem_or_eq_of_mem_set ht with ht | rfl
      · exact ⟨t, ht, .inl rfl⟩
      · exact ⟨u, List.getElem?_mem hu, .inr rfl⟩
    · cases h
  · cases h; exact ⟨t, ht, .inl rfl⟩

/-- A `Signal` while someone waits wakes goroutine `w`, a waiter. -/
theorem signal_eq_set {ts ts' : List (Phase α)} {w : Nat} (h : signal ts w = some ts')
    (hw : ts.any Phase.isWaiting) :
    ∃ t, ts[w]? = some t ∧ t.isWaiting ∧ ts' = ts.set w t.wake := by
  unfold signal at h
  rw [if_pos hw] at h
  split at h
  · rename_i t ht
    split_ifs at h with hwt
    exact ⟨t, ht, hwt, (Option.some.inj h).symm⟩
  · cases h

theorem broadcast_getWait (ts : List (Phase α)) : (broadcast ts).any Phase.isGetWait = false := by
  simp [broadcast]

theorem mem_broadcast {ts : List (Phase α)} {t : Phase α} (ht : t ∈ broadcast ts) :
    ∃ u ∈ ts, t = u ∨ t = u.wake := by
  obtain ⟨u, hu, rfl⟩ := List.mem_map.mp ht
  exact ⟨u, hu, .inr rfl⟩

end ClientGo.Workqueue
