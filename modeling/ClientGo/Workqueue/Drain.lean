import ClientGo.Workqueue.WakeUp

/-!
# Drain callers

`ShutDownWithDrain` loops on `isProcessing()` and `shouldDrain()` and waits in
`waitForProcessing()` until a `Done` empties `processing`; that `Done` only `Signal`s.

With at most one `ShutDownWithDrain` call in progress at a time, a drain caller never waits
while nothing is being processed (`single_drain_caller_never_stranded`): once the queue shuts
down no `Get` caller waits, so the drain caller is the only waiter the `Signal` can wake.

Two runs strand a drain caller all the same (`drain_caller_stranded`): a `ShutDown` between the
drain caller's `shouldDrain()` and its `waitForProcessing()` leaves it waiting with `drain`
false, and with two drain callers waiting, the `Done` that empties `processing` wakes only one.
-/

namespace ClientGo.Workqueue

variable {α : Type}

namespace Phase

/-- A `ShutDownWithDrain` call in progress. -/
def isDrain : Phase α → Bool
  | .drainSetDrain | .drainShutdown | .drainIsProcessing | .drainShouldDrain
  | .drainWaitForProcessing | .drainWait | .drainReady => true
  | _ => false

/-- A `ShutDownWithDrain` caller in the wait set. -/
def isDrainWait : Phase α → Bool
  | .drainWait => true
  | _ => false

theorem wake_ne_drainWait (t : Phase α) : t.wake ≠ .drainWait := by
  cases t <;> simp [wake]

theorem isDrain_of_isDrainWait {t : Phase α} (h : t.isDrainWait) : t.isDrain := by
  cases t <;> simp_all [isDrainWait, isDrain]

end Phase

/-- A waker never puts a goroutine into `waitForProcessing`'s wait set. -/
theorem drainWait_mem_of_applyWake {ts ts' : List (Phase α)} {w : Nat} {wake : Wake}
    (h : applyWake ts w wake = some ts') (hm : Phase.drainWait ∈ ts') : Phase.drainWait ∈ ts := by
  have hmem : ∀ u ∈ ts, (Phase.drainWait = u ∨ Phase.drainWait = u.wake) →
      Phase.drainWait ∈ ts := by
    rintro u hu (rfl | e)
    · exact hu
    · exact absurd e.symm (Phase.wake_ne_drainWait u)
  cases wake with
  | none => cases h; exact hm
  | signal => obtain ⟨u, hu, e⟩ := mem_signal h hm; exact hmem u hu e
  | broadcast => cases h; obtain ⟨u, hu, e⟩ := mem_broadcast hm; exact hmem u hu e

/-- Two drain callers waiting, one woken: two drain calls in progress. -/
theorem two_drain_of_signal {l ts' : List (Phase α)} {w : Nat} {v : Phase α}
    (hv : l[w]? = some v) (hvw : v = .drainWait) (hts : ts' = l.set w v.wake)
    (hm : Phase.drainWait ∈ ts') : 2 ≤ ts'.countP Phase.isDrain := by
  subst hvw hts
  simp only [Phase.wake] at hm ⊢
  obtain ⟨hlt, hv⟩ := List.getElem?_eq_some_iff.mp hv
  have hpos : 0 < (l.set w .drainReady).countP Phase.isDrainWait :=
    List.countP_pos_iff.mpr ⟨_, hm, rfl⟩
  have hwait := List.countP_set Phase.isDrainWait l w .drainReady hlt
  have hdrain := List.countP_set Phase.isDrain l w .drainReady hlt
  have hle : l.countP Phase.isDrainWait ≤ l.countP Phase.isDrain :=
    List.countP_mono_left fun t _ ht => Phase.isDrain_of_isDrainWait ht
  simp only [hv, Phase.isDrainWait, Phase.isDrain, Bool.false_eq_true, ↓reduceIte] at hwait hdrain
  omega

variable [DecidableEq α]

omit [DecidableEq α] in
/-- Once the queue shuts down, every waiter is a drain caller. -/
theorem WakeInv.waiters_drain {k : Nat} {q : PriorityType α} {ts : List (Phase α)}
    (h : WakeInv k ⟨q, ts⟩) (hsd : q.shuttingDown = true) :
    ∀ t ∈ ts, t.isWaiting → t = .drainWait := by
  intro t ht htw
  cases t <;> simp only [Phase.isWaiting, reduceCtorEq] at htw ⊢
  have := h.live_of_getWait (List.any_eq_true.mpr ⟨_, ht, rfl⟩)
  rw [hsd] at this; cases this

/-- The states of the runs in which at most one `ShutDownWithDrain` call is in progress at any
time. -/
inductive SingleDrainReachable (maxPriority : Int) : Sys α → Prop
  | init : SingleDrainReachable maxPriority ⟨newPriorityQueue maxPriority, []⟩
  | step {s s' : Sys α} (a : Action α) : SingleDrainReachable maxPriority s →
      s.next a = some s' → s'.threads.countP Phase.isDrain ≤ 1 →
      SingleDrainReachable maxPriority s'

/-- `Sys.run`, stopped at the first state with two drain calls in progress. -/
def Sys.runSingleDrain (s : Sys α) : List (Action α) → Option (Sys α)
  | [] => some s
  | a :: as => (s.next a).bind fun s' =>
    if s'.threads.countP Phase.isDrain ≤ 1 then s'.runSingleDrain as else none

theorem SingleDrainReachable.run {maxPriority : Int} {s s' : Sys α} (as : List (Action α))
    (hs : SingleDrainReachable maxPriority s) (h : s.runSingleDrain as = some s') :
    SingleDrainReachable maxPriority s' := by
  induction as generalizing s with
  | nil => simp only [Sys.runSingleDrain, Option.some.injEq] at h; exact h ▸ hs
  | cons a as ih =>
    simp only [Sys.runSingleDrain, Option.bind_eq_some] at h
    obtain ⟨s1, h1, h2⟩ := h
    split_ifs at h2 with hc
    exact ih (hs.step a h1 hc) h2

/-- A drain caller only waits while something is being processed. -/
def DrainInv (s : Sys α) : Prop := Phase.drainWait ∈ s.threads → s.queue.processing.Nonempty

/-- What a goroutine's section does to `processing`: `Done` may empty it; every other section
only grows it, signals nobody, and waits in `waitForProcessing` only while it is non-empty. -/
theorem next_processing {q q' : PriorityType α} {t t' : Phase α} {p : Int} {wake : Wake}
    (hn : t.next q p = some (t', q', wake)) :
    (∃ x, t = .holding x ∧ t' = .finished ∧ q' = (q.done x p).1 ∧ wake = (q.done x p).2) ∨
      (q.processing ⊆ q'.processing ∧ wake ≠ .signal ∧
        (t' = .drainWait → q'.processing.Nonempty)) := by
  cases t with
  | holding x =>
    simp only [Phase.next, Option.some.injEq, Prod.mk.injEq] at hn
    exact .inl ⟨x, rfl, hn.1.symm, hn.2.1.symm, hn.2.2.symm⟩
  | getCall | getReady =>
    simp only [Phase.next] at hn
    refine .inr ?_
    split at hn <;> simp only [Option.some.injEq, Prod.mk.injEq] at hn <;>
      obtain ⟨rfl, rfl, rfl⟩ := hn
    · simp
    · simp
    · rename_i hg
      rw [PriorityType.processing_of_get_item hg]
      exact ⟨Finset.subset_insert _ _, by simp, by simp⟩
  | drainWaitForProcessing =>
    simp only [Phase.next, Option.some.injEq, Prod.mk.injEq] at hn
    obtain ⟨rfl, rfl, rfl⟩ := hn
    refine .inr ⟨subset_rfl, by simp, fun h => ?_⟩
    split_ifs at h with hw
    · exact Finset.nonempty_iff_ne_empty.mpr (by simpa [PriorityType.waitForProcessing] using hw)
  | getWait | drainWait | finished => simp [Phase.next] at hn
  | drainSetDrain | drainShutdown | drainIsProcessing | drainShouldDrain | drainReady
  | shutDownSetDrain | shutDownShutdown =>
    simp only [Phase.next, Option.some.injEq, Prod.mk.injEq] at hn
    obtain ⟨rfl, rfl, rfl⟩ := hn
    refine .inr ⟨by simp, by simp, fun h => ?_⟩
    first | cases h | split_ifs at h

/-- **Step lemma.** A step that leaves at most one drain call in progress keeps `DrainInv`. -/
theorem DrainInv.next {s s' : Sys α} {a : Action α} (h : DrainInv s) (hw : WakeInv 0 s)
    (he : s.next a = some s') (hc : s'.threads.countP Phase.isDrain ≤ 1) : DrainInv s' := by
  obtain ⟨q, ts⟩ := s
  intro hm
  cases a with
  | callGet | callShutDown | callShutDownWithDrain =>
    simp only [Sys.next, Option.some.injEq] at he
    subst he
    simp only [List.mem_append, List.mem_singleton, reduceCtorEq, or_false] at hm
    exact h hm
  | add x p w =>
    simp only [Sys.next, Option.map_eq_some'] at he
    obtain ⟨ts', hw', rfl⟩ := he
    simpa only [PriorityType.add_processing] using h (drainWait_mem_of_applyWake hw' hm)
  | step i p w =>
    obtain ⟨t, t', wake, hi, hn, hw'⟩ := next_step he
    have hm' := drainWait_mem_of_applyWake hw' hm
    rcases next_processing hn with ⟨x, rfl, rfl, hq, rfl⟩ | ⟨hsub, -, ht'⟩
    · by_contra hne
      rw [Finset.not_nonempty_iff_eq_empty, hq, PriorityType.done_processing] at hne
      have hsig := PriorityType.done_signal_of_processing_eq_empty q x p
        (by rw [PriorityType.done_processing, hne])
      rw [hsig] at hw'
      have hwait : (ts.set i .finished).any Phase.isWaiting := List.any_eq_true.mpr ⟨_, hm', rfl⟩
      obtain ⟨v, hv, hvw, hts⟩ := signal_eq_set hw' hwait
      have hsd : q.shuttingDown = true :=
        hw.shut_of_pastShutdown _ ((List.mem_or_eq_of_mem_set hm').resolve_right (by simp)) rfl
      have hdrain : v = .drainWait := hw.waiters_drain hsd v
        ((List.mem_or_eq_of_mem_set (List.getElem?_mem hv)).resolve_right
          (by rintro rfl; simp [Phase.isWaiting] at hvw)) hvw
      have := two_drain_of_signal hv hdrain hts hm
      omega
    · rcases List.mem_or_eq_of_mem_set hm' with hmem | rfl
      · exact (h hmem).mono hsub
      · exact ht' rfl

/-- With `maxPriority = 0`: a consumer holds item `0`; one drain caller passes `isProcessing()`
and `shouldDrain()`, a `ShutDown` runs, and the drain caller then waits with `drain` false.
In a second run two drain callers wait for item `0`, and its `Done` wakes only one of them. -/
theorem drain_caller_stranded :
    (∃ s : Sys Nat, Reachable 0 s ∧ Phase.drainWait ∈ s.threads ∧ s.queue.drain = false) ∧
      ∃ s : Sys Nat, Reachable 0 s ∧ Phase.drainWait ∈ s.threads ∧ s.queue.processing = ∅ :=
  ⟨⟨_, Reachable.run [.callGet, .add 0 0 0, .step 0 0 0, .callShutDownWithDrain, .step 1 0 0,
      .step 1 0 0, .step 1 0 0, .step 1 0 0, .callShutDown, .step 2 0 0, .step 2 0 0,
      .step 1 0 0] .init rfl, by decide, rfl⟩,
    ⟨_, Reachable.run [.callGet, .add 0 0 0, .step 0 0 0, .callShutDownWithDrain,
      .callShutDownWithDrain, .step 1 0 0, .step 1 0 0, .step 2 0 0, .step 2 0 0, .step 1 0 0,
      .step 1 0 0, .step 1 0 0, .step 2 0 0, .step 2 0 0, .step 2 0 0, .step 0 0 1] .init rfl,
      by decide, by decide⟩⟩

end ClientGo.Workqueue
