import ClientGo.Workqueue.Goroutines

/-!
# Consumers never miss a wake-up

`WakeInv 0` holds in every reachable state (`reachable_wakeInv`): while some `Get` caller is in
the wait set, the queue is not shutting down and the items in `minPriority..maxPriority` are at
most the `Get` callers in the ready set. So a `Get` caller only sleeps when every item it could
take already has a woken consumer on its way (`consumers_never_miss_wakeup`).

The proof is one step lemma per kind of locked section. `Add` and a re-enqueuing `Done` add at
most one item and `Signal`; while a `Get` caller waits every waiter is a `Get` caller (a drain
caller only waits after its own `shutdown()`), so that `Signal` readies a `Get` caller
(`WakeInv.signal`). A woken or fresh `Get` caller either takes an item or waits on an empty
queue, and `shutdown()` broadcasts, leaving no waiter.

`WakeInv k` is the invariant with `k` signals still to be sent by the current section.
-/

namespace ClientGo.Workqueue

variable {α : Type} [DecidableEq α]

/-- The invariant behind the wake-ups, with `k` signals the current section has yet to send. -/
structure WakeInv (k : Nat) (s : Sys α) : Prop where
  /-- A drain caller past its `shutdown()` sees the queue shutting down. -/
  shut_of_pastShutdown : ∀ t ∈ s.threads, t.pastShutdown → s.queue.shuttingDown = true
  /-- A `Get` caller only waits while the queue is live. -/
  live_of_getWait : s.threads.any Phase.isGetWait → s.queue.shuttingDown = false
  /-- While a `Get` caller waits, the items in range have woken `Get` callers on their way. -/
  len_le_ready : s.threads.any Phase.isGetWait →
    s.queue.lenNoLock ≤ s.threads.countP Phase.isGetReady + k

variable {k : Nat} {q q' : PriorityType α} {ts ts' : List (Phase α)}

omit [DecidableEq α] in
/-- While a `Get` caller waits, every waiter is a `Get` caller. -/
theorem WakeInv.waiters_get (h : WakeInv k ⟨q, ts⟩) (hw : ts.any Phase.isGetWait) :
    ∀ t ∈ ts, t.isWaiting → t.isGetWait := by
  intro t ht htw
  cases t <;> simp only [Phase.isWaiting, reduceCtorEq] at htw
  · rfl
  · have h1 : q.shuttingDown = true := h.shut_of_pastShutdown _ ht rfl
    have h2 : q.shuttingDown = false := h.live_of_getWait hw
    rw [h1] at h2; cases h2

omit [DecidableEq α] in
/-- The pending signal of a section readies a `Get` caller when one waits. -/
theorem WakeInv.signal {w : Nat} (h : WakeInv 1 ⟨q, ts⟩) (hs : signal ts w = some ts') :
    WakeInv 0 ⟨q, ts'⟩ where
  shut_of_pastShutdown t ht hp := by
    obtain ⟨u, hu, e | e⟩ := mem_signal hs ht <;> rw [e] at hp
    · exact h.shut_of_pastShutdown u hu hp
    · exact h.shut_of_pastShutdown u hu (by simpa using hp)
  live_of_getWait hw := h.live_of_getWait (signal_getWait hs hw)
  len_le_ready hw := by
    have hw0 := signal_getWait hs hw
    have h1 := signal_getReady_succ hs hw0 (h.waiters_get hw0)
    have h2 := h.len_le_ready hw0
    simp only at h1 h2 ⊢
    omega

omit [DecidableEq α] in
/-- After `shutdown()`'s broadcast nobody waits. -/
theorem WakeInv.broadcast (hsd : q.shuttingDown = true) : WakeInv 0 ⟨q, broadcast ts⟩ where
  shut_of_pastShutdown _ _ _ := hsd
  live_of_getWait hw := by simp [broadcast_getWait] at hw
  len_le_ready hw := by simp [broadcast_getWait] at hw

omit [DecidableEq α] in
/-- A section that changes only the queue, by at most `k` items in range. -/
theorem WakeInv.queue (h : WakeInv 0 ⟨q, ts⟩) (hsd : q'.shuttingDown = q.shuttingDown)
    (hlen : q'.lenNoLock ≤ q.lenNoLock + k) : WakeInv k ⟨q', ts⟩ where
  shut_of_pastShutdown t ht hp := hsd.trans (h.shut_of_pastShutdown t ht hp)
  live_of_getWait hw := hsd.trans (h.live_of_getWait hw)
  len_le_ready hw := by have := h.len_le_ready hw; simp only at this ⊢; omega

omit [DecidableEq α] in
/-- A new goroutine, not yet in the wait or ready set. -/
theorem WakeInv.spawn (h : WakeInv 0 ⟨q, ts⟩) {t : Phase α} (hp : t.pastShutdown = false)
    (hw : t.isGetWait = false) (hr : t.isGetReady = false) : WakeInv 0 ⟨q, ts ++ [t]⟩ where
  shut_of_pastShutdown u hu hup := by
    rcases List.mem_append.mp hu with hu | hu
    · exact h.shut_of_pastShutdown u hu hup
    · simp only [List.mem_singleton] at hu; subst hu; simp [hp] at hup
  live_of_getWait hw' := h.live_of_getWait (by simpa [hw] using hw')
  len_le_ready hw' := by
    have := h.len_le_ready (by simpa [hw] using hw')
    simpa [List.countP_append, hr] using this

omit [DecidableEq α] in
/-- Goroutine `i` goes from `t` to `t'` and the queue from `q` to `q'`, with `k` signals still
to send. -/
theorem WakeInv.set (h : WakeInv 0 ⟨q, ts⟩) {i : Nat} {t t' : Phase α} (hi : ts[i]? = some t)
    (hsd : q'.shuttingDown = q.shuttingDown)
    (hpast : t'.pastShutdown → q'.shuttingDown = true)
    (hwait : t'.isGetWait → q'.shuttingDown = false ∧ q'.lenNoLock = 0)
    (hlen : q'.lenNoLock = 0 ∨ q'.lenNoLock + (if t.isGetReady then 1 else 0) ≤
        q.lenNoLock + k + (if t'.isGetReady then 1 else 0)) :
    WakeInv k ⟨q', ts.set i t'⟩ := by
  obtain ⟨hlt, rfl⟩ := List.getElem?_eq_some_iff.mp hi
  have hcount := List.countP_set Phase.isGetReady ts i t' hlt
  have hle := List.boole_getElem_le_countP Phase.isGetReady ts i hlt
  refine ⟨fun u hu hup => ?_, fun hw => ?_, fun hw => ?_⟩
  · rcases List.mem_or_eq_of_mem_set hu with hu | rfl
    · exact hsd.trans (h.shut_of_pastShutdown u hu hup)
    · exact hpast hup
  all_goals
    obtain ⟨u, hu, huw⟩ := List.any_eq_true.mp hw
    rcases List.mem_or_eq_of_mem_set hu with hu | rfl
  · exact hsd.trans (h.live_of_getWait (List.any_eq_true.mpr ⟨u, hu, huw⟩))
  · exact (hwait huw).1
  · have := h.len_le_ready (List.any_eq_true.mpr ⟨u, hu, huw⟩)
    simp only at this ⊢
    rw [hcount]
    omega
  · simp only; rw [(hwait huw).2]; omega

omit [DecidableEq α] in
/-- A section of the drain loop past `shutdown()`: only the drain caller's phase changes. -/
theorem WakeInv.drain_pass (h : WakeInv 0 ⟨q, ts⟩) {i : Nat} {t t' : Phase α}
    (hi : ts[i]? = some t) (ht : t.pastShutdown) (hr : t.isGetReady = false)
    (hw' : t'.isGetWait = false) (hr' : t'.isGetReady = false) :
    WakeInv 0 ⟨q, ts.set i t'⟩ :=
  h.set hi rfl (fun _ => h.shut_of_pastShutdown t (List.getElem?_mem hi) ht)
    (by simp [hw']) (.inr (by simp [hr, hr']))

/-- A pass of `Get`, fresh or woken: it waits on an empty live queue, returns on an empty
shut-down queue, or takes one item. -/
theorem WakeInv.get_pass (h : WakeInv 0 ⟨q, ts⟩) {i : Nat} {t t' : Phase α} {p : Int}
    {wake : Wake} (hi : ts[i]? = some t) (ht : t = .getCall ∨ t = .getReady)
    (hn : t.next q p = some (t', q', wake)) : wake = .none ∧ WakeInv 0 ⟨q', ts.set i t'⟩ := by
  have hnext : t.next q p = match q.get with
      | .wait => some (.getWait, q, .none)
      | .shutdown => some (.finished, q, .none)
      | .item x q' => some (.holding x, q', .none) := by
    rcases ht with rfl | rfl <;> rfl
  rw [hnext] at hn
  split at hn <;> simp only [Option.some.injEq, Prod.mk.injEq] at hn <;>
    obtain ⟨rfl, rfl, rfl⟩ := hn <;> refine ⟨rfl, ?_⟩
  · rename_i hg
    exact h.set hi rfl (by simp [Phase.pastShutdown]) (fun _ => PriorityType.get_eq_wait hg)
      (.inl (PriorityType.get_eq_wait hg).2)
  · rename_i hg
    exact h.set hi rfl (by simp [Phase.pastShutdown]) (by simp [Phase.isGetWait])
      (.inl (PriorityType.get_eq_shutdown hg).2)
  · rename_i x q1 hg
    obtain ⟨hlen, hsd⟩ := PriorityType.lenNoLock_of_get_item hg
    refine h.set hi hsd (by simp [Phase.pastShutdown]) (by simp [Phase.isGetWait]) (.inr ?_)
    simp only [Phase.isGetReady, if_false, Nat.add_zero]
    split_ifs <;> omega

/-- **Step lemma.** Every step of the system keeps the invariant. -/
theorem WakeInv.next {s s' : Sys α} {a : Action α} (h : WakeInv 0 s)
    (he : s.next a = some s') : WakeInv 0 s' := by
  obtain ⟨q, ts⟩ := s
  cases a with
  | callGet | callShutDown | callShutDownWithDrain =>
    simp only [Sys.next, Option.some.injEq] at he
    subst he
    exact h.spawn rfl rfl rfl
  | add x p w =>
    simp only [Sys.next, Option.map_eq_some'] at he
    obtain ⟨ts', hw, rfl⟩ := he
    have hsd := PriorityType.add_shuttingDown q x p
    cases hwk : (q.add x p).2 with
    | none =>
      rw [hwk] at hw; cases hw
      exact h.queue hsd (by rw [PriorityType.add_lenNoLock_eq q x p (by simp [hwk])]; omega)
    | signal =>
      rw [hwk] at hw
      exact (h.queue hsd (PriorityType.add_lenNoLock_le q x p)).signal hw
    | broadcast => exact absurd hwk (PriorityType.add_snd_ne_broadcast q x p)
  | step i p w =>
    obtain ⟨t, t', wake, hi, hn, hw⟩ := next_step he
    obtain ⟨q', ts'⟩ := s'
    simp only at hn hw ⊢
    cases t with
    | getCall | getReady =>
      obtain ⟨rfl, h'⟩ := h.get_pass hi (by simp) hn
      cases hw
      exact h'
    | holding x =>
      simp only [Phase.next, Option.some.injEq, Prod.mk.injEq] at hn
      obtain ⟨rfl, rfl, rfl⟩ := hn
      have hsd := PriorityType.done_shuttingDown q x p
      have hset : ∀ k, (q.done x p).1.lenNoLock ≤ q.lenNoLock + k →
          WakeInv k ⟨(q.done x p).1, ts.set i .finished⟩ := fun _ hk =>
        h.set hi hsd (by simp [Phase.pastShutdown]) (by simp [Phase.isGetWait])
          (.inr (by simpa [Phase.isGetReady] using hk))
      cases hwk : (q.done x p).2 with
      | none =>
        rw [hwk] at hw; cases hw
        exact hset 0 (by rw [PriorityType.done_lenNoLock_eq q x p (by simp [hwk])]; omega)
      | signal =>
        rw [hwk] at hw
        exact (hset 1 (PriorityType.done_lenNoLock_le q x p)).signal hw
      | broadcast => exact absurd hwk (PriorityType.done_snd_ne_broadcast q x p)
    | drainSetDrain | shutDownSetDrain =>
      simp only [Phase.next, Option.some.injEq, Prod.mk.injEq] at hn
      obtain ⟨rfl, rfl, rfl⟩ := hn
      cases hw
      exact h.set hi rfl (by simp [Phase.pastShutdown]) (by simp [Phase.isGetWait])
        (.inr (by simp [Phase.isGetReady]))
    | drainShutdown | shutDownShutdown =>
      simp only [Phase.next, Option.some.injEq, Prod.mk.injEq] at hn
      obtain ⟨rfl, rfl, rfl⟩ := hn
      cases hw
      exact WakeInv.broadcast rfl
    | drainIsProcessing | drainShouldDrain | drainWaitForProcessing | drainReady =>
      simp only [Phase.next, Option.some.injEq, Prod.mk.injEq] at hn
      obtain ⟨rfl, rfl, rfl⟩ := hn
      cases hw
      exact h.drain_pass hi rfl rfl (by (try split_ifs) <;> rfl) (by (try split_ifs) <;> rfl)
    | getWait | drainWait | finished => simp [Phase.next] at hn

/-- **Run lemma.** The invariant holds in every reachable state. -/
theorem reachable_wakeInv {maxPriority : Int} {s : Sys α} (h : Reachable maxPriority s) :
    WakeInv 0 s := by
  induction h with
  | init => exact ⟨by simp, by simp, by simp⟩
  | step a _ he ih => exact ih.next he

/-- **No lost wake-up.** In every reachable state, whenever a `Get` caller is in the wait set,
the queue is not shutting down and the items in `minPriority..maxPriority` are at most the `Get`
callers in the ready set (woken but not yet re-checked). -/
theorem consumers_never_miss_wakeup (maxPriority : Int) (s : Sys α)
    (h : Reachable maxPriority s) (hw : Phase.getWait ∈ s.threads) :
    s.queue.shuttingDown = false ∧
      s.queue.lenNoLock ≤ s.threads.countP Phase.isGetReady := by
  have hinv := reachable_wakeInv h
  have hany : s.threads.any Phase.isGetWait := List.any_eq_true.mpr ⟨_, hw, rfl⟩
  exact ⟨hinv.live_of_getWait hany, by simpa using hinv.len_le_ready hany⟩

/-- One consumer calls `Get` on an empty queue and waits. -/
theorem consumers_never_miss_wakeup_one_waiter :
    (⟨newPriorityQueue 0, [.getWait]⟩ : Sys Nat).queue.shuttingDown = false ∧
      (⟨newPriorityQueue 0, [.getWait]⟩ : Sys Nat).queue.lenNoLock ≤
        (⟨newPriorityQueue 0, [.getWait]⟩ : Sys Nat).threads.countP Phase.isGetReady :=
  consumers_never_miss_wakeup 0 ⟨newPriorityQueue 0, [.getWait]⟩
    (Reachable.run [.callGet, .step 0 0 0] .init rfl) (by simp)

end ClientGo.Workqueue
